import Mathlib.Data.Int.Order.Basic
import Mathlib.Data.List.Count
import Stackweave.Heap
import Stackweave.LinkedList
import Stackweave.Transition

/-!
# The parker pools (`netpoll_parkers.c.inc`, `netpoll_parker_link.c.inc`)

A parker is on the list of its pool, in the bucket of its fd, on the deadline heap
and counted by the pool and by its scheduler, all at once. `link` and `unlink` are
here store by store: a list has `next` pointers and the address of the pointer to
each node (`slot`), a bucket has pointers both ways, and the heap is an array whose
entries know their place. Any growth of the heap or of the fd index may fail; the
parker then stays out of it.

The fields of the parkers and of the pools are functions of the parker or the pool,
so that a store is an update at one place, and stand with the structure they
belong to. Parkers are named by numbers.
-/

namespace Stackweave.Netpoll.Parkers

open Transition LinkedList

/-- What `p->slot` points to: the head of a pool or the `next` of a parker. -/
inductive Slot
  | head (i : ℕ)
  | next (q : ℕ)

/-- `RUNLOOM_PARKER_POOL_HUBS` and the index of the default pool. -/
def poolHubs : ℕ := 64

/-- `runloom_parker_pool_for_hub`; a hub is given by its id. -/
def poolForHub : Option ℕ → ℕ
  | some id => if id < poolHubs then id else poolHubs
  | none => poolHubs

/-- `p->next` and `p->slot` of the parkers and `pool->head`. -/
structure Lists where
  next : ℕ → Option ℕ
  slot : ℕ → Option Slot
  head : ℕ → Option ℕ

/-- `p->next_by_fd` and `p->prev_by_fd` of the parkers, `pool->by_fd` with its capacity, and
the bit of each pool in the word of each fd of `runloom_fd_poolmask`. `missed` tells the parkers
that the index could not take when they were linked. -/
structure Buckets where
  next : ℕ → Option ℕ
  prev : ℕ → Option ℕ
  byFd : ℕ → ℕ → Option ℕ
  byFdCap : ℕ → ℕ
  mask : ℕ → ℕ → Bool
  missed : ℕ → Bool

/-- `p->heap_index` of the parkers and `dh_arr`, `dh_size` and `dh_cap` of the pools. `missed`
tells the parkers whose insertion was dropped. -/
structure Deadlines where
  heapIndex : ℕ → Option ℕ
  arr : ℕ → ℕ → ℕ
  size : ℕ → ℕ
  cap : ℕ → ℕ
  missed : ℕ → Bool

structure State where
  lists : Lists
  buckets : Buckets
  deadlines : Deadlines
  fd : ℕ → ℤ
  /-- `deadline_ns`; negative is none. -/
  deadline : ℕ → ℤ
  hub : ℕ → Option ℕ
  /-- `p->g->owner` -/
  owner : ℕ → Option ℕ
  total : ℕ → ℤ
  /-- `netpoll_parked` of a scheduler. -/
  parked : ℕ → ℤ
  /-- Linked by the last operation on it. -/
  linked : ℕ → Bool

def State.init : State :=
  { lists := { next := fun _ => none, slot := fun _ => none, head := fun _ => none }
    buckets :=
      { next := fun _ => none, prev := fun _ => none, byFd := fun _ _ => none
        byFdCap := fun _ => 0, mask := fun _ _ => false, missed := fun _ => false }
    deadlines :=
      { heapIndex := fun _ => none, arr := fun _ _ => 0, size := fun _ => 0, cap := fun _ => 0
        missed := fun _ => false }
    fd := fun _ => -1, deadline := fun _ => -1, hub := fun _ => none, owner := fun _ => none
    total := fun _ => 0, parked := fun _ => 0, linked := fun _ => false }

def State.pool (s : State) (p : ℕ) : ℕ := poolForHub (s.hub p)

/-! ### The list of a pool -/

/-- Link: the head that an earlier life of the parker may have left goes, then the parker is
pushed. -/
def Lists.link (x : Lists) (i p : ℕ) : Lists :=
  let head := if x.head i = some p then none else x.head i
  { next := Function.update x.next p head
    slot := Function.update (storeAt x.slot head (some (.next p))) p (some (.head i))
    head := Function.update x.head i (some p) }

/-- `*p->slot = v` -/
def Lists.store (x : Lists) (v : Option ℕ) : Slot → Lists
  | .head i => { x with head := Function.update x.head i v }
  | .next q => { x with next := Function.update x.next q v }

def Lists.unlink (x : Lists) (p : ℕ) : Lists :=
  match x.slot p with
  | none => x
  | some sl =>
    let y := x.store (x.next p) sl
    { y with
      next := Function.update y.next p none
      slot := Function.update (storeAt y.slot (x.next p) (some sl)) p none }

/-! ### The fd index -/

/-- The doubling loop of `runloom_parker_fd_index_ensure`, with a bound on its turns. -/
def growCap (f : ℕ) : ℕ → ℕ → ℕ
  | 0, cap => cap
  | fuel + 1, cap => if cap ≤ f then growCap f fuel (2 * cap) else cap

/-- `runloom_parker_fd_index_ensure` for an fd that is not negative; `ok` is whether a
`realloc` would succeed. -/
def Buckets.ensure (b : Buckets) (i f : ℕ) (ok : Bool) : Option Buckets :=
  if f < b.byFdCap i then some b
  else if ok then
    let cap := if b.byFdCap i = 0 then 256 else 2 * b.byFdCap i
    some { b with
      byFd := Function.update b.byFd i fun g => if g < b.byFdCap i then b.byFd i g else none
      byFdCap := Function.update b.byFdCap i (growCap f (f + 1) cap) }
  else none

/-- `runloom_fd_poolmask_set` and `runloom_fd_poolmask_clear`; `cap` is the size of the mask,
`0` if there was no memory for it. -/
def Buckets.setMask (cap : ℕ) (b : Buckets) (i f : ℕ) (v : Bool) : Buckets :=
  if i < poolHubs ∧ f < cap then
    { b with mask := Function.update b.mask f (Function.update (b.mask f) i v) }
  else b

/-- Whether the parker is the head of its bucket. -/
def Buckets.heads (b : Buckets) (i p : ℕ) (fd : ℤ) : Prop :=
  0 ≤ fd ∧ fd.toNat < b.byFdCap i ∧ b.byFd i fd.toNat = some p

instance (b : Buckets) (i p : ℕ) (fd : ℤ) : Decidable (b.heads i p fd) :=
  inferInstanceAs (Decidable (_ ∧ _ ∧ _))

/-- A bucket head that an earlier life of the parker may have left goes. -/
def Buckets.clearStale (b : Buckets) (i p : ℕ) (fd : ℤ) : Buckets :=
  if b.heads i p fd then
    { b with byFd := Function.update b.byFd i (Function.update (b.byFd i) fd.toNat none) }
  else b

def Buckets.detach (b : Buckets) (p : ℕ) : Buckets :=
  { b with prev := Function.update b.prev p none, next := Function.update b.next p none }

/-- The parker at the front of its bucket. -/
def Buckets.push (b : Buckets) (i p f : ℕ) : Buckets :=
  { b with
    next := Function.update b.next p (b.byFd i f)
    prev := storeAt b.prev (b.byFd i f) (some p)
    byFd := Function.update b.byFd i (Function.update (b.byFd i) f (some p))
    missed := Function.update b.missed p false }

/-- Into the bucket if the index has room for the fd. -/
def Buckets.place (cap : ℕ) (b : Buckets) (i p : ℕ) (fd : ℤ) (ok : Bool) : Buckets :=
  match if 0 ≤ fd then b.ensure i fd.toNat ok else none with
  | some c => (c.push i p fd.toNat).setMask cap i fd.toNat true
  | none => { b with missed := Function.update b.missed p true }

def Buckets.link (cap : ℕ) (b : Buckets) (i p : ℕ) (fd : ℤ) (ok : Bool) : Buckets :=
  ((b.clearStale i p fd).detach p).place cap i p fd ok

def Buckets.remove (b : Buckets) (i p : ℕ) (fd : ℤ) : Buckets :=
  { b with
    byFd :=
      if b.heads i p fd then
        Function.update b.byFd i (Function.update (b.byFd i) fd.toNat (b.next p))
      else b.byFd
    next := Function.update (storeAt b.next (b.prev p) (b.next p)) p none
    prev := Function.update (storeAt b.prev (b.next p) (b.prev p)) p none }

/-- The bit of the pool goes when the bucket is empty. -/
def Buckets.clearBit (cap : ℕ) (b : Buckets) (i : ℕ) (fd : ℤ) : Buckets :=
  if 0 ≤ fd ∧ (b.byFdCap i ≤ fd.toNat ∨ b.byFd i fd.toNat = none) then
    b.setMask cap i fd.toNat false
  else b

def Buckets.unlink (cap : ℕ) (b : Buckets) (i p : ℕ) (fd : ℤ) : Buckets :=
  (b.remove i p fd).clearBit cap i fd

/-! ### The deadline heap -/

def Deadlines.cells (d : Deadlines) (i : ℕ) : Heap.Cells ℕ :=
  { arr := d.arr i, index := d.heapIndex }

def Deadlines.setCells (d : Deadlines) (i : ℕ) (c : Heap.Cells ℕ) (n : ℕ) : Deadlines :=
  { d with
    heapIndex := c.index
    arr := Function.update d.arr i c.arr
    size := Function.update d.size i n }

/-- The insertion when there is room. -/
def Deadlines.push (key : ℕ → ℤ) (d : Deadlines) (i p : ℕ) : Deadlines :=
  { d.setCells i (Heap.insert key (d.size i) (d.cells i) p) (d.size i + 1) with
    missed := Function.update d.missed p false }

/-- `runloom_dh_grow` -/
def Deadlines.grow (d : Deadlines) (i : ℕ) : Deadlines :=
  { d with cap := Function.update d.cap i (if d.cap i = 0 then 64 else 2 * d.cap i) }

/-- `runloom_dh_insert`; `ok` is whether a `realloc` would succeed. -/
def Deadlines.insert (key : ℕ → ℤ) (d : Deadlines) (i p : ℕ) (ok : Bool) : Deadlines :=
  if key p < 0 ∨ d.heapIndex p ≠ none then d
  else if d.cap i ≤ d.size i then
    if ok then (d.grow i).push key i p
    else { d with missed := Function.update d.missed p true }
  else d.push key i p

/-- `runloom_dh_remove` -/
def Deadlines.remove (key : ℕ → ℤ) (d : Deadlines) (i p : ℕ) : Deadlines :=
  match d.heapIndex p with
  | none => d
  | some k =>
    if d.size i ≤ k then d
    else d.setCells i (Heap.remove key (d.size i - 1) (d.cells i) p k) (d.size i - 1)

/-! ### `runloom_parker_link` and `runloom_parker_unlink` -/

/-- The counters of the pool and of the scheduler; hub parkers are not counted by the latter. -/
def State.count (s : State) (i p : ℕ) (d : ℤ) : State :=
  { s with
    total := Function.update s.total i (s.total i + d)
    parked :=
      match s.hub p, s.owner p with
      | none, some o => Function.update s.parked o (s.parked o + d)
      | _, _ => s.parked }

/-- `runloom_parker_link`; `fdOk` and `dhOk` are whether the two `realloc` calls succeed, `cap`
is the size of the mask. -/
def State.link (cap : ℕ) (s : State) (i p : ℕ) (fdOk dhOk : Bool) : State :=
  { s.count i p 1 with
    lists := s.lists.link i p
    buckets := s.buckets.link cap i p (s.fd p) fdOk
    deadlines := s.deadlines.insert s.deadline i p dhOk }

/-- Whether `runloom_parker_unlink` finds the parker anywhere. -/
def State.touched (s : State) (i p : ℕ) : Prop :=
  s.lists.slot p ≠ none ∨ s.buckets.prev p ≠ none ∨ s.buckets.heads i p (s.fd p) ∨
    s.deadlines.heapIndex p ≠ none

instance (s : State) (i p : ℕ) : Decidable (s.touched i p) :=
  inferInstanceAs (Decidable (_ ∨ _ ∨ _ ∨ _))

/-- `runloom_parker_unlink`; the result says whether the parker was removed. -/
def State.unlink (cap : ℕ) (s : State) (i p : ℕ) : State × Bool :=
  let t :=
    { s with
      lists := s.lists.unlink p
      buckets := s.buckets.unlink cap i p (s.fd p)
      deadlines := s.deadlines.remove s.deadline i p }
  if s.touched i p then (t.count i p (-1), true) else (t, false)

/-! ### The system -/

inductive Act
  /-- The owner of a parker that is not linked writes its fields. -/
  | fill (p : ℕ) (fd deadline : ℤ) (hub owner : Option ℕ)
  | link (p : ℕ) (fdOk dhOk : Bool)
  /-- A linked parker is unlinked from its own pool; any pool will do for another one. -/
  | unlink (i p : ℕ)

def State.fill (s : State) (p : ℕ) (fd deadline : ℤ) (hub owner : Option ℕ) : State :=
  { s with
    fd := Function.update s.fd p fd
    deadline := Function.update s.deadline p deadline
    hub := Function.update s.hub p hub
    owner := Function.update s.owner p owner }

def State.mark (s : State) (p : ℕ) (b : Bool) : State :=
  { s with linked := Function.update s.linked p b }

def step (cap : ℕ) (s : State) : Act → Option State
  | .fill p fd deadline hub owner =>
    if s.linked p then none else some (s.fill p fd deadline hub owner)
  | .link p fdOk dhOk =>
    if s.linked p then none else some ((s.link cap (s.pool p) p fdOk dhOk).mark p true)
  | .unlink i p =>
    if s.linked p → i = s.pool p then some ((s.unlink cap i p).1.mark p false) else none

/-- The pools; the mask has `cap` words. -/
def pools (cap : ℕ) : System State Act := { init := fun s => s = .init, step := step cap }

/-! ### The lists -/

/-- What `slot` is, from the parker before it on the list. -/
def slotOf (i : ℕ) : Option ℕ → Option Slot
  | none => some (.head i)
  | some q => some (.next q)

section Lists

variable {x : Lists} {L : ℕ → List ℕ} {i p : ℕ}

def Lists.Shape (x : Lists) (L : ℕ → List ℕ) : Prop :=
  Family none slotOf x.next x.slot x.head L

theorem Lists.Shape.link (h : x.Shape L) (hp : ∀ j, p ∉ L j) (i : ℕ) :
    (x.link i p).Shape (Function.update L i (p :: L i)) := by
  have hhead : x.head i ≠ some p := fun he => hp i (h.mem_of_head he)
  unfold Lists.link
  rw [if_neg hhead]
  exact h.push hp i

theorem Lists.unlink_eq {q : Option ℕ} (h : x.slot p = slotOf i q) :
    x.unlink p =
      { next := Function.update (storeAt x.next q (x.next p)) p none
        slot := Function.update (storeAt x.slot (x.next p) (x.slot p)) p none
        head := if q = none then Function.update x.head i (x.next p) else x.head } := by
  unfold Lists.unlink
  rw [h]
  cases q <;> rfl

theorem Lists.Shape.unlink (h : x.Shape L) (hp : p ∈ L i) :
    (x.unlink p).Shape (Function.update L i ((L i).erase p)) := by
  obtain ⟨q, hslot, -, hd⟩ := Family.remove h hp
  rw [Lists.unlink_eq hslot]
  exact hd

theorem Lists.Shape.unlink_free (h : x.Shape L) (hp : ∀ j, p ∉ L j) : x.unlink p = x := by
  unfold Lists.unlink
  rw [(h.free p hp).2]

end Lists

/-! ### The buckets -/

theorem le_growCap (f fuel cap : ℕ) : cap ≤ growCap f fuel cap := by
  induction fuel generalizing cap with
  | zero => exact Nat.le_refl cap
  | succ fuel ih =>
    rw [growCap]
    split
    · have := ih (2 * cap)
      omega
    · exact Nat.le_refl cap

theorem lt_growCap {f fuel cap : ℕ} (hcap : 0 < cap) (h : f < cap + fuel) :
    f < growCap f fuel cap := by
  induction fuel generalizing cap with
  | zero => exact h
  | succ fuel ih =>
    rw [growCap]
    split
    · exact ih (by omega) (by omega)
    · omega

structure Buckets.Shape (cap : ℕ) (b : Buckets) (B : ℕ × ℕ → List ℕ) : Prop where
  family : Family none (fun _ q => q) b.next b.prev (fun k : ℕ × ℕ => b.byFd k.1 k.2) B
  room : ∀ i f, b.byFdCap i ≤ f → B (i, f) = []
  mask : ∀ i f, b.mask f i = true ↔ i < poolHubs ∧ f < cap ∧ B (i, f) ≠ []

theorem byFd_update (byFd : ℕ → ℕ → Option ℕ) (i f : ℕ) (v : Option ℕ) :
    (fun k : ℕ × ℕ => Function.update byFd i (Function.update (byFd i) f v) k.1 k.2) =
      Function.update (fun k => byFd k.1 k.2) (i, f) v := by
  funext ⟨j, g⟩
  by_cases hj : j = i
  · subst hj
    by_cases hg : g = f
    · rw [hg, Function.update_self, Function.update_self, Function.update_self]
    · have hne : (j, g) ≠ (j, f) := fun he => hg (congrArg Prod.snd he)
      rw [Function.update_self, Function.update_of_ne hg, Function.update_of_ne hne]
  · have hne : (j, g) ≠ (i, f) := fun he => hj (congrArg Prod.fst he)
    rw [Function.update_of_ne hj, Function.update_of_ne hne]

theorem mask_update (mask : ℕ → ℕ → Bool) (i f j g : ℕ) (v : Bool) :
    Function.update mask f (Function.update (mask f) i v) g j =
      if (j, g) = (i, f) then v else mask g j := by
  by_cases hg : g = f
  · subst hg
    by_cases hj : j = i
    · rw [hj, Function.update_self, Function.update_self, if_pos rfl]
    · rw [Function.update_self, Function.update_of_ne hj, if_neg fun he => hj (congrArg Prod.fst he)]
  · rw [Function.update_of_ne hg, if_neg fun he => hg (congrArg Prod.snd he)]

section Buckets

variable {cap : ℕ} {b c : Buckets} {B C : ℕ × ℕ → List ℕ} {i p f : ℕ} {fd : ℤ} {ok : Bool}

theorem Buckets.Shape.byFd_eq_none (h : b.Shape cap B) : b.byFd i f = none ↔ B (i, f) = [] := by
  have hhead : b.byFd i f = (B (i, f)).head? := (h.family.doubly (i, f)).leads.head
  rw [hhead, List.head?_eq_none_iff]

theorem Buckets.Shape.not_heads (h : b.Shape cap B) (hp : ∀ k, p ∉ B k) (i : ℕ) (fd : ℤ) :
    ¬ b.heads i p fd :=
  fun hh => hp (i, fd.toNat) (h.family.mem_of_head hh.2.2)

theorem Buckets.Shape.detach (h : b.Shape cap B) (hp : ∀ k, p ∉ B k) : b.detach p = b := by
  obtain ⟨hnext, hprev⟩ := h.family.free p hp
  have hn : Function.update b.next p none = b.next := by rw [← hnext, Function.update_eq_self]
  have hv : Function.update b.prev p none = b.prev := by rw [← hprev, Function.update_eq_self]
  rw [Buckets.detach, hn, hv]

/-- The store to the mask, when the bucket of `f` is the only one to have become empty or not
empty. -/
theorem setMask_mask (h : ∀ i f, b.mask f i = true ↔ i < poolHubs ∧ f < cap ∧ B (i, f) ≠ [])
    (hc : ∀ k, k ≠ (i, f) → C k = B k) {v : Bool} (hv : v = true ↔ C (i, f) ≠ []) (j g : ℕ) :
    (b.setMask cap i f v).mask g j = true ↔ j < poolHubs ∧ g < cap ∧ C (j, g) ≠ [] := by
  unfold Buckets.setMask
  by_cases hk : (j, g) = (i, f)
  · obtain ⟨rfl, rfl⟩ := Prod.mk.inj hk
    split
    case isTrue hin =>
      dsimp only
      rw [mask_update, if_pos rfl, hv]
      exact ⟨fun hne => ⟨hin.1, hin.2, hne⟩, fun hr => hr.2.2⟩
    case isFalse hout =>
      rw [h]
      exact ⟨fun hr => absurd ⟨hr.1, hr.2.1⟩ hout, fun hr => absurd ⟨hr.1, hr.2.1⟩ hout⟩
  · rw [hc _ hk, ← h]
    split
    · dsimp only
      rw [mask_update, if_neg hk]
    · rfl

/-- Only the mask changes. -/
theorem setMask_eq (b : Buckets) (cap i f : ℕ) (v : Bool) :
    b.setMask cap i f v = { b with mask := (b.setMask cap i f v).mask } := by
  unfold Buckets.setMask
  split <;> rfl

/-- Only the capacity grows: what the new part of the index is set to it was already. -/
theorem Buckets.Shape.ensure (h : b.Shape cap B) (he : b.ensure i f ok = some c) :
    c.Shape cap B ∧ f < c.byFdCap i ∧ c = { b with byFdCap := c.byFdCap } := by
  unfold Buckets.ensure at he
  split at he
  case isTrue hf =>
    cases he
    exact ⟨h, hf, rfl⟩
  case isFalse hf =>
    split at he
    case isFalse => cases he
    case isTrue =>
      cases he
      have hsame : (fun g => if g < b.byFdCap i then b.byFd i g else none) = b.byFd i := by
        funext g
        split
        · rfl
        case isFalse hg => exact (h.byFd_eq_none.mpr (h.room i g (Nat.le_of_not_lt hg))).symm
      rw [hsame, Function.update_eq_self]
      refine ⟨⟨h.family, fun j g hg => h.room j g ?_, h.mask⟩, ?_, rfl⟩
      · dsimp only at hg
        by_cases hji : j = i
        · subst hji
          rw [Function.update_self] at hg
          refine Nat.le_trans (Nat.le_trans ?_ (le_growCap f (f + 1) _)) hg
          split <;> omega
        · rwa [Function.update_of_ne hji] at hg
      · dsimp only
        rw [Function.update_self]
        exact lt_growCap (by split <;> omega) (by omega)

theorem Buckets.Shape.push (h : b.Shape cap B) (hp : ∀ k, p ∉ B k) (hf : f < b.byFdCap i) :
    ((b.push i p f).setMask cap i f true).Shape cap
      (Function.update B (i, f) (p :: B (i, f))) := by
  obtain ⟨hnext, hprev⟩ := h.family.free p hp
  have hhead : b.byFd i f ≠ some p := fun he => hp (i, f) (h.family.mem_of_head he)
  have hkeep : ∀ k, k ≠ (i, f) → Function.update B (i, f) (p :: B (i, f)) k = B k := fun k hk =>
    Function.update_of_ne hk ..
  refine ⟨?_, ?_, fun j g => setMask_mask (b := b.push i p f) h.mask hkeep ?_ j g⟩
  · have hfam := h.family.push hp (i, f)
    rw [← byFd_update] at hfam
    rw [setMask_eq]
    refine ⟨fun k => (hfam.doubly k).congr (fun _ _ => rfl) fun y _ => ?_, hfam.disjoint,
      fun y hy => ?_⟩
    · change storeAt b.prev (b.byFd i f) (some p) y = _
      by_cases hy : y = p
      · rw [hy, storeAt_of_ne hhead, Function.update_self, hprev]
      · rw [Function.update_of_ne hy]
    · have hfree := hfam.free y hy
      have hyp : y ≠ p := fun he => by
        have := hy (i, f)
        rw [Function.update_self, he] at this
        exact this List.mem_cons_self
      rw [Function.update_of_ne hyp, Function.update_of_ne hyp] at hfree
      refine ⟨?_, hfree.2⟩
      change Function.update b.next p _ y = none
      rw [Function.update_of_ne hyp]
      exact hfree.1
  · intro j g hg
    rw [setMask_eq] at hg
    have hne : (j, g) ≠ (i, f) := fun he => by
      obtain ⟨rfl, rfl⟩ := Prod.mk.inj he
      exact Nat.lt_irrefl _ (Nat.lt_of_lt_of_le hf hg)
    rw [hkeep _ hne]
    exact h.room j g hg
  · rw [Function.update_self]
    exact ⟨fun _ => List.cons_ne_nil _ _, fun _ => rfl⟩

/-- A parker that is in no bucket is linked: it is missed, or it is in the bucket of its fd. -/
theorem Buckets.Shape.link (h : b.Shape cap B) (hp : ∀ k, p ∉ B k) (i : ℕ) (fd : ℤ) (ok : Bool) :
    (b.link cap i p fd ok).Shape cap B ∧
        (b.link cap i p fd ok).missed = Function.update b.missed p true ∨
      0 ≤ fd ∧
        (b.link cap i p fd ok).Shape cap
          (Function.update B (i, fd.toNat) (p :: B (i, fd.toNat))) ∧
        (b.link cap i p fd ok).missed = Function.update b.missed p false := by
  have hheads := h.not_heads hp i fd
  unfold Buckets.link
  rw [Buckets.clearStale, if_neg hheads, h.detach hp, Buckets.place]
  cases hensure : if 0 ≤ fd then b.ensure i fd.toNat ok else none with
  | none => exact .inl ⟨⟨h.family, h.room, h.mask⟩, rfl⟩
  | some c =>
    obtain ⟨hfd, hensure⟩ := Option.ite_none_right_eq_some.mp hensure
    obtain ⟨hc, hroom, heq⟩ := h.ensure hensure
    refine .inr ⟨hfd, hc.push hp hroom, ?_⟩
    dsimp only
    rw [setMask_eq, heq]
    rfl

theorem Buckets.Shape.remove (h : b.Shape cap B) (hfd : 0 ≤ fd) (hp : p ∈ B (i, fd.toNat)) :
    Family none (fun _ q => q) (b.remove i p fd).next (b.remove i p fd).prev
      (fun k : ℕ × ℕ => (b.remove i p fd).byFd k.1 k.2)
      (Function.update B (i, fd.toNat) ((B (i, fd.toNat)).erase p)) := by
  obtain ⟨q, hprev, hhead, hfam⟩ := h.family.remove hp
  have hroom : fd.toNat < b.byFdCap i := by
    by_contra hge
    rw [h.room i _ (Nat.le_of_not_lt hge)] at hp
    exact List.not_mem_nil hp
  have hheads : b.heads i p fd ↔ q = none := by
    rw [← hhead]
    exact ⟨fun hh => hh.2.2, fun hh => ⟨hfd, hroom, hh⟩⟩
  have hbyFd : (fun k : ℕ × ℕ => (b.remove i p fd).byFd k.1 k.2) =
      if q = none then Function.update (fun k => b.byFd k.1 k.2) (i, fd.toNat) (b.next p)
      else fun k => b.byFd k.1 k.2 := by
    unfold Buckets.remove
    by_cases hq : q = none
    · simp only [if_pos (hheads.mpr hq), if_pos hq]
      exact byFd_update ..
    · simp only [if_neg (fun hh => hq (hheads.mp hh)), if_neg hq]
  rw [hbyFd, ← hprev] at *
  exact hfam

theorem Buckets.Shape.unlink (h : b.Shape cap B) (hfd : 0 ≤ fd) (hp : p ∈ B (i, fd.toNat)) :
    (b.unlink cap i p fd).Shape cap
        (Function.update B (i, fd.toNat) ((B (i, fd.toNat)).erase p)) ∧
      (b.unlink cap i p fd).missed = b.missed := by
  have hfam := h.remove hfd hp
  have hkeep : ∀ k, k ≠ (i, fd.toNat) →
      Function.update B (i, fd.toNat) ((B (i, fd.toNat)).erase p) k = B k := fun k hk =>
    Function.update_of_ne hk ..
  have hroom : ∀ j g, b.byFdCap j ≤ g →
      Function.update B (i, fd.toNat) ((B (i, fd.toNat)).erase p) (j, g) = [] := by
    intro j g hg
    have hnil := h.room j g hg
    by_cases hk : (j, g) = (i, fd.toNat)
    · rw [← hk, hnil] at hp
      exact absurd hp List.not_mem_nil
    · rw [hkeep _ hk, hnil]
  have hhead : (b.remove i p fd).byFd i fd.toNat = none ↔
      Function.update B (i, fd.toNat) ((B (i, fd.toNat)).erase p) (i, fd.toNat) = [] := by
    have := (hfam.doubly (i, fd.toNat)).leads.head
    rw [show (b.remove i p fd).byFd i fd.toNat = _ from this, List.head?_eq_none_iff]
  have hcap : ¬ b.byFdCap i ≤ fd.toNat := fun hge => by
    rw [h.room i _ hge] at hp
    exact List.not_mem_nil hp
  unfold Buckets.unlink Buckets.clearBit
  split
  case isTrue hempty =>
    have hnil := hhead.mp (hempty.2.resolve_left hcap)
    rw [setMask_eq]
    refine ⟨⟨hfam, hroom, fun j g => ?_⟩, rfl⟩
    exact setMask_mask (b := b.remove i p fd) h.mask hkeep
      ⟨fun hf => absurd hf Bool.false_ne_true, fun hne => absurd hnil hne⟩ j g
  case isFalse hsome =>
    refine ⟨⟨hfam, hroom, fun j g => (h.mask j g).trans ?_⟩, rfl⟩
    by_cases hk : (j, g) = (i, fd.toNat)
    · have hne : Function.update B (i, fd.toNat) ((B (i, fd.toNat)).erase p) (i, fd.toNat) ≠ [] :=
        fun he => hsome ⟨hfd, .inr (hhead.mpr he)⟩
      have hB : B (i, fd.toNat) ≠ [] := List.ne_nil_of_mem hp
      rw [hk]
      exact ⟨fun hr => ⟨hr.1, hr.2.1, hne⟩, fun hr => ⟨hr.1, hr.2.1, hB⟩⟩
    · rw [hkeep _ hk]

theorem Buckets.Shape.unlink_free (h : b.Shape cap B) (hp : ∀ k, p ∉ B k) :
    b.unlink cap i p fd = b := by
  obtain ⟨hnext, hprev⟩ := h.family.free p hp
  have hremove : b.remove i p fd = b.detach p := by
    unfold Buckets.remove
    rw [if_neg (h.not_heads hp i fd), hprev, hnext]
    rfl
  unfold Buckets.unlink
  rw [hremove, h.detach hp, Buckets.clearBit]
  split
  case isFalse => rfl
  case isTrue hempty =>
    have hnil : B (i, fd.toNat) = [] := hempty.2.elim (h.room i _) h.byFd_eq_none.mp
    have hmask : b.mask fd.toNat i = false := by
      rw [← Bool.not_eq_true, h.mask]
      exact fun hr => hr.2.2 hnil
    unfold Buckets.setMask
    rw [← hmask, Function.update_eq_self, Function.update_eq_self]
    exact ite_self b

end Buckets

/-! ### The heaps -/

/-- `on i p` says that `p` is to be on the heap of the pool `i`. -/
structure Deadlines.Shape (key : ℕ → ℤ) (d : Deadlines) (on : ℕ → ℕ → Prop) : Prop where
  indexed : ∀ i, Heap.Indexed (d.cells i) (d.size i)
  ordered : ∀ i, Heap.Ordered key (d.cells i) (d.size i)
  has : ∀ i p, (d.cells i).Has (d.size i) p ↔ on i p
  free : ∀ p, (∀ i, ¬ on i p) → d.heapIndex p = none
  one : ∀ i j p, on i p → on j p → i = j
  room : ∀ i, d.size i ≤ d.cap i

section Deadlines

variable {key key' : ℕ → ℤ} {d : Deadlines} {on on' : ℕ → ℕ → Prop} {i p : ℕ} {ok : Bool}

theorem Deadlines.Shape.congr (h : d.Shape key on) (hkey : ∀ i p, on i p → key' p = key p)
    (hon : ∀ i p, on' i p ↔ on i p) : d.Shape key' on' where
  indexed := h.indexed
  ordered i k hpos hk := by
    have hin : ∀ m < d.size i, on i ((d.cells i).arr m) := fun m hm =>
      (h.has i _).mp ⟨m, hm, rfl⟩
    rw [hkey i _ (hin k hk), hkey i _ (hin _ (Nat.lt_trans (Heap.parent_lt hpos) hk))]
    exact h.ordered i k hpos hk
  has i p := (h.has i p).trans (hon i p).symm
  free p hp := h.free p fun i hi => hp i ((hon i p).mpr hi)
  one i j p hi hj := h.one i j p ((hon i p).mp hi) ((hon j p).mp hj)
  room := h.room

/-- An entry knows its place. -/
theorem Deadlines.Shape.place (h : d.Shape key on) (hp : on i p) :
    ∃ k, d.heapIndex p = some k ∧ k < d.size i ∧ d.arr i k = p := by
  obtain ⟨k, hk, hkp⟩ := (h.has i p).mpr hp
  have hindex := h.indexed i k hk
  rw [hkp] at hindex
  exact ⟨k, hindex, hk, hkp⟩

/-- The heap of one pool changes, and it keeps its hands off the entries of the others. -/
theorem Deadlines.Shape.setCells {n : ℕ} {c : Heap.Cells ℕ} (h : d.Shape key on)
    (hindexed : Heap.Indexed c n) (hordered : Heap.Ordered key c n)
    (hhas : ∀ p, c.Has n p ↔ on' i p) (hother : ∀ j p, j ≠ i → (on' j p ↔ on j p))
    (hfree : ∀ p, (∀ j, ¬ on' j p) → c.index p = none)
    (hsame : ∀ j p, j ≠ i → on j p → c.index p = d.heapIndex p)
    (hone : ∀ i j p, on' i p → on' j p → i = j) (hroom : n ≤ d.cap i) :
    (d.setCells i c n).Shape key on' := by
  have hat : (d.setCells i c n).cells i = c ∧ (d.setCells i c n).size i = n := by
    simp only [Deadlines.setCells, Deadlines.cells, Function.update_self, and_self]
  have hne : ∀ j, j ≠ i → ((d.setCells i c n).cells j).arr = (d.cells j).arr ∧
      (d.setCells i c n).size j = d.size j := by
    intro j hj
    simp only [Deadlines.setCells, Deadlines.cells, Function.update_of_ne hj, and_self]
  refine ⟨fun j => ?_, fun j => ?_, fun j p => ?_, hfree, hone, fun j => ?_⟩
  · by_cases hj : j = i
    · rw [hj, hat.1, hat.2]
      exact hindexed
    · intro k hk
      rw [(hne j hj).2] at hk
      rw [(hne j hj).1]
      have hon : on j ((d.cells j).arr k) := (h.has j _).mp ⟨k, hk, rfl⟩
      exact (hsame j _ hj hon).trans (h.indexed j k hk)
  · by_cases hj : j = i
    · rw [hj, hat.1, hat.2]
      exact hordered
    · intro k hpos hk
      rw [(hne j hj).2] at hk
      rw [(hne j hj).1]
      exact h.ordered j k hpos hk
  · by_cases hj : j = i
    · rw [hj, hat.1, hat.2]
      exact hhas p
    · rw [hother j p hj, ← h.has j p]
      unfold Heap.Cells.Has
      rw [(hne j hj).1, (hne j hj).2]
  · by_cases hj : j = i
    · rw [hj, hat.2]
      exact hroom
    · rw [(hne j hj).2]
      exact h.room j

theorem Deadlines.Shape.push (h : d.Shape key on) (hp : ∀ j, ¬ on j p)
    (hroom : d.size i < d.cap i) :
    (d.push key i p).Shape key (fun j q => on j q ∨ j = i ∧ q = p) := by
  have hnot : ¬ (d.cells i).Has (d.size i) p := fun hh => hp i ((h.has i p).mp hh)
  have hins := Heap.insert_inserted (h.indexed i) (h.ordered i) hnot
  have hne : ∀ j q, on j q → q ≠ p := fun j q hq he => hp j (he ▸ hq)
  have hold : ∀ q, ¬ on i q → q ≠ p →
      (Heap.insert key (d.size i) (d.cells i) p).index q = d.heapIndex q := fun q hq hqp =>
    hins.others q (fun hh => hq ((h.has i q).mp hh)) hqp
  have hset : (d.setCells i (Heap.insert key (d.size i) (d.cells i) p) (d.size i + 1)).Shape key
      (fun j q => on j q ∨ j = i ∧ q = p) := h.setCells hins.indexed hins.ordered
    (fun q => by rw [hins.has q, h.has i q]; simp only [true_and])
    (fun j q hj => ⟨fun hq => hq.resolve_right fun he => hj he.1, .inl⟩)
    (fun q hq => by
      have hqp : q ≠ p := fun he => hq i (.inr ⟨rfl, he⟩)
      have hon : ∀ j, ¬ on j q := fun j hj => hq j (.inl hj)
      exact (hold q (hon i) hqp).trans (h.free q hon))
    (fun j q hj hq => hold q (fun hi => hj (h.one j i q hq hi)) (hne j q hq))
    (fun j k q hj hk => by
      rcases hj with hj | ⟨hj, hqp⟩ <;> rcases hk with hk | ⟨hk, hqp'⟩
      · exact h.one j k q hj hk
      · exact absurd hqp' (hne j q hj)
      · exact absurd hqp (hne k q hk)
      · exact hj.trans hk.symm)
    hroom
  exact ⟨hset.indexed, hset.ordered, hset.has, hset.free, hset.one, hset.room⟩

theorem Deadlines.Shape.grow (h : d.Shape key on) (hfull : d.cap i ≤ d.size i) :
    (d.grow i).Shape key on ∧ (d.grow i).size i < (d.grow i).cap i := by
  have hcap : d.cap i < if d.cap i = 0 then 64 else 2 * d.cap i := by split <;> omega
  have hsize := h.room i
  refine ⟨⟨h.indexed, h.ordered, h.has, h.free, h.one, fun j => ?_⟩, ?_⟩
  · change d.size j ≤ Function.update d.cap i _ j
    by_cases hj : j = i
    · rw [hj, Function.update_self]
      omega
    · rw [Function.update_of_ne hj]
      exact h.room j
  · change d.size i < Function.update d.cap i _ i
    rw [Function.update_self]
    omega

/-- What an insertion of a parker that is on no heap does. -/
theorem Deadlines.Shape.insert (h : d.Shape key on) (hp : ∀ j, ¬ on j p) (i : ℕ) (ok : Bool) :
    key p < 0 ∧ d.insert key i p ok = d ∨
      0 ≤ key p ∧ (d.insert key i p ok).Shape key on ∧
        (d.insert key i p ok).missed = Function.update d.missed p true ∨
      0 ≤ key p ∧ (d.insert key i p ok).Shape key (fun j q => on j q ∨ j = i ∧ q = p) ∧
        (d.insert key i p ok).missed = Function.update d.missed p false := by
  have hindex := h.free p hp
  unfold Deadlines.insert
  by_cases hkey : key p < 0
  · rw [if_pos (.inl hkey)]
    exact .inl ⟨hkey, rfl⟩
  · rw [if_neg (fun hor => hor.elim hkey fun hne => hne hindex)]
    refine .inr ?_
    have hnn : 0 ≤ key p := Int.not_lt.mp hkey
    split
    case isTrue hfull =>
      split
      · obtain ⟨hgrow, hroom⟩ := h.grow hfull
        exact .inr ⟨hnn, hgrow.push hp hroom, rfl⟩
      · exact .inl ⟨hnn, ⟨h.indexed, h.ordered, h.has, h.free, h.one, h.room⟩, rfl⟩
    case isFalse hroom => exact .inr ⟨hnn, h.push hp (Nat.lt_of_not_le hroom), rfl⟩

theorem Deadlines.insert_eq_push (hkey : 0 ≤ key p) (hindex : d.heapIndex p = none)
    (hroom : d.size i < d.cap i) : d.insert key i p ok = d.push key i p := by
  unfold Deadlines.insert
  rw [if_neg (fun hor => hor.elim (Int.not_lt.mpr hkey) fun hne => hne hindex),
    if_neg (Nat.not_le.mpr hroom)]

theorem Deadlines.remove_of_none (hp : d.heapIndex p = none) : d.remove key i p = d := by
  unfold Deadlines.remove
  rw [hp]

theorem Deadlines.Shape.remove (h : d.Shape key on) (hp : on i p) :
    (d.remove key i p).Shape key (fun j q => on j q ∧ q ≠ p) ∧
      (d.remove key i p).size i + 1 = d.size i ∧
      (d.remove key i p).cap = d.cap ∧ (d.remove key i p).missed = d.missed := by
  obtain ⟨k, hindex, hk, hkp⟩ := h.place hp
  obtain ⟨n, hn⟩ : ∃ n, d.size i = n + 1 := ⟨d.size i - 1, by omega⟩
  have hindexed := h.indexed i
  have hordered := h.ordered i
  rw [hn] at hindexed hordered
  have hrem := Heap.remove_removed hindexed hordered (hn ▸ hk) hkp
  have hremove : d.remove key i p = d.setCells i (Heap.remove key n (d.cells i) p k) n := by
    unfold Deadlines.remove
    rw [hindex]
    dsimp only
    rw [if_neg (Nat.not_le.mpr hk), hn, Nat.add_sub_cancel]
  have hhas : ∀ q, (d.cells i).Has (n + 1) q ↔ on i q := fun q => by
    rw [← hn]
    exact h.has i q
  have hother : ∀ j q, j ≠ i → on j q → q ≠ p := fun j q hj hq he =>
    hj (h.one j i p (he ▸ hq) hp)
  rw [hremove]
  refine ⟨h.setCells hrem.indexed hrem.ordered (fun q => ?_) (fun j q hj => ?_) (fun q hq => ?_)
    (fun j q hj hq => ?_) (fun j k q hj hk => h.one j k q hj.1 hk.1) ?_, ?_, rfl, rfl⟩
  · rw [hrem.has q, hhas q]
  · exact ⟨fun hq => hq.1, fun hq => ⟨hq, hother j q hj hq⟩⟩
  · by_cases hqp : q = p
    · rw [hqp]
      exact hrem.gone
    · have hon : ∀ j, ¬ on j q := fun j hj => hq j ⟨hj, hqp⟩
      exact (hrem.others q fun hh => hon i ((hhas q).mp hh)).trans (h.free q hon)
  · exact hrem.others q fun hh => hj (h.one j i q hq ((hhas q).mp hh))
  · have hroom := h.room i
    omega
  · simp only [Deadlines.setCells, Function.update_self, hn]

end Deadlines

/-! ### The invariant -/

/-- The linked parkers that `netpoll_parked` of the scheduler `o` counts. -/
def State.counted (s : State) (o p : ℕ) : Bool := s.hub p = none ∧ s.owner p = some o

/-- What the lists `L` of the pools and the lists `B` of the buckets are, with the heaps and the
counters. -/
structure Inv (cap : ℕ) (s : State) (L : ℕ → List ℕ) (B : ℕ × ℕ → List ℕ) : Prop where
  lists : s.lists.Shape L
  list : ∀ i p, p ∈ L i ↔ s.linked p = true ∧ s.pool p = i
  buckets : s.buckets.Shape cap B
  bucket : ∀ i f p, p ∈ B (i, f) ↔
    (s.linked p = true ∧ s.pool p = i) ∧ s.fd p = f ∧ s.buckets.missed p = false
  indexed : ∀ p, s.linked p = true → s.buckets.missed p = false → 0 ≤ s.fd p
  deadlines : s.deadlines.Shape s.deadline fun i p =>
    (s.linked p = true ∧ s.pool p = i) ∧ 0 ≤ s.deadline p ∧ s.deadlines.missed p = false
  total : ∀ i, s.total i = (L i).length
  parked : ∀ o, s.parked o = (L poolHubs).countP (s.counted o)

section

variable {cap : ℕ} {s t : State} {L : ℕ → List ℕ} {B : ℕ × ℕ → List ℕ} {p : ℕ}

theorem init_inv : Inv cap .init (fun _ => []) (fun _ => []) where
  lists := .empty
  list _ _ := ⟨fun h => absurd h List.not_mem_nil, fun h => absurd h.1 Bool.false_ne_true⟩
  buckets :=
    { family := .empty
      room := fun _ _ _ => rfl
      mask := fun _ _ => ⟨fun h => absurd h Bool.false_ne_true, fun h => absurd rfl h.2.2⟩ }
  bucket _ _ _ := ⟨fun h => absurd h List.not_mem_nil, fun h => absurd h.1.1 Bool.false_ne_true⟩
  indexed _ h := absurd h Bool.false_ne_true
  deadlines :=
    { indexed := fun _ _ h => absurd h (Nat.not_lt_zero _)
      ordered := fun _ _ _ h => absurd h (Nat.not_lt_zero _)
      has := fun _ _ => ⟨fun ⟨_, h, _⟩ => absurd h (Nat.not_lt_zero _),
        fun h => absurd h.1.1 Bool.false_ne_true⟩
      free := fun _ _ => rfl
      one := fun _ _ _ h => absurd h.1.1 Bool.false_ne_true
      room := fun _ => Nat.le_refl 0 }
  total _ := rfl
  parked _ := rfl

section Free

variable (hp : s.linked p = false)
include hp

theorem not_linked {P : Prop} : ¬ (s.linked p = true ∧ P) := fun h => by
  rw [hp] at h
  exact Bool.false_ne_true h.1

theorem Inv.not_mem_list (h : Inv cap s L B) (j : ℕ) : p ∉ L j := fun hm =>
  not_linked hp ((h.list j p).mp hm)

theorem Inv.not_mem_bucket (h : Inv cap s L B) (k : ℕ × ℕ) : p ∉ B k := fun hm =>
  not_linked hp ((h.bucket k.1 k.2 p).mp hm).1

theorem Inv.fill (h : Inv cap s L B) (fd deadline : ℤ) (hub owner : Option ℕ) :
    Inv cap (s.fill p fd deadline hub owner) L B := by
  have hne : ∀ q, s.linked q = true → q ≠ p := fun q hq he => by
    rw [he, hp] at hq
    exact Bool.false_ne_true hq
  have hpool : ∀ q, s.linked q = true → (s.fill p fd deadline hub owner).pool q = s.pool q := by
    intro q hq
    change poolForHub (Function.update s.hub p hub q) = _
    rw [Function.update_of_ne (hne q hq)]
    rfl
  have hon : ∀ i q, s.linked q = true ∧ (s.fill p fd deadline hub owner).pool q = i ↔
      s.linked q = true ∧ s.pool q = i := fun i q =>
    and_congr_right fun hq => by rw [hpool q hq]
  have hfd : ∀ q, s.linked q = true → (s.fill p fd deadline hub owner).fd q = s.fd q :=
    fun q hq => Function.update_of_ne (hne q hq) ..
  have hdeadline : ∀ q, s.linked q = true →
      (s.fill p fd deadline hub owner).deadline q = s.deadline q :=
    fun q hq => Function.update_of_ne (hne q hq) ..
  refine ⟨h.lists, fun i q => (h.list i q).trans (hon i q).symm, h.buckets, fun i f q => ?_,
    fun q hq hm => ?_, h.deadlines.congr (fun i q hq => hdeadline q hq.1.1) fun i q => ?_, h.total,
    fun o => ?_⟩
  · rw [h.bucket i f q]
    refine Iff.trans ?_ (and_congr_left' (hon i q).symm)
    exact and_congr_right fun hq => by rw [hfd q hq.1]; rfl
  · rw [hfd q hq]
    exact h.indexed q hq hm
  · refine (and_congr_left' (hon i q)).trans ?_
    exact and_congr_right fun hq => by rw [hdeadline q hq.1]; rfl
  · rw [show (s.fill p fd deadline hub owner).parked o = s.parked o from rfl, h.parked o]
    refine congrArg Nat.cast (List.countP_congr fun q hq => ?_)
    have hqp := hne q ((h.list poolHubs q).mp hq).1
    simp only [State.counted, State.fill, Function.update_of_ne hqp]

end Free

/-! ### The counters -/

theorem count_parked (s : State) (i p : ℕ) (d : ℤ) (o : ℕ) :
    (s.count i p d).parked o =
      s.parked o + if s.hub p = none ∧ s.owner p = some o then d else 0 := by
  unfold State.count
  cases hhub : s.hub p with
  | some id => simp
  | none =>
    cases howner : s.owner p with
    | none => simp
    | some o' =>
      by_cases ho : o = o'
      · subst ho
        simp
      · simp [Function.update_of_ne ho, Ne.symm ho]

theorem counted_cons (s : State) (p o : ℕ) (l : List ℕ) :
    ((p :: l).countP (s.counted o) : ℤ) =
      l.countP (s.counted o) + if s.hub p = none ∧ s.owner p = some o then 1 else 0 := by
  rw [List.countP_cons, Int.natCast_add]
  by_cases h : s.hub p = none ∧ s.owner p = some o
  · have hc : s.counted o p = true := decide_eq_true h
    rw [if_pos h, if_pos hc]
    rfl
  · have hc : ¬ s.counted o p = true := fun hd => h (of_decide_eq_true hd)
    rw [if_neg h, if_neg hc]
    rfl

/-- Only the parkers of the default pool are counted. -/
theorem pool_of_counted {o : ℕ} (h : s.hub p = none ∧ s.owner p = some o) :
    s.pool p = poolHubs := by
  rw [State.pool, h.1, poolForHub]

theorem count_total (s : State) (i p : ℕ) (d : ℤ) (j : ℕ) :
    (s.count i p d).total j = s.total j + if j = i then d else 0 := by
  unfold State.count
  by_cases hj : j = i
  · rw [if_pos hj, hj]
    exact Function.update_self ..
  · rw [if_neg hj, Int.add_zero]
    exact Function.update_of_ne hj ..

/-! ### Link -/

section Link

variable (hp : s.linked p = false)
include hp

/-- The linked parkers after the link. -/
theorem link_on (j q : ℕ) :
    Function.update s.linked p true q = true ∧ s.pool q = j ↔
      (s.linked q = true ∧ s.pool q = j) ∨ j = s.pool p ∧ q = p := by
  by_cases hq : q = p
  · subst hq
    rw [Function.update_self, hp]
    constructor
    · exact fun hj => .inr ⟨hj.2.symm, rfl⟩
    · exact fun hj => hj.elim (fun hf => absurd hf.1 Bool.false_ne_true) fun he => ⟨rfl, he.1.symm⟩
  · rw [Function.update_of_ne hq]
    exact ⟨.inl, fun hj => hj.resolve_right fun he => hq he.2⟩

theorem Inv.link_buckets (h : Inv cap s L B) (ok : Bool) :
    ∃ C, (s.buckets.link cap (s.pool p) p (s.fd p) ok).Shape cap C ∧
      (∀ j f q, q ∈ C (j, f) ↔
        (Function.update s.linked p true q = true ∧ s.pool q = j) ∧ s.fd q = f ∧
          (s.buckets.link cap (s.pool p) p (s.fd p) ok).missed q = false) ∧
      ∀ q, Function.update s.linked p true q = true →
        (s.buckets.link cap (s.pool p) p (s.fd p) ok).missed q = false → 0 ≤ s.fd q := by
  rcases h.buckets.link (h.not_mem_bucket hp) (s.pool p) (s.fd p) ok with
    ⟨hshape, hmissed⟩ | ⟨hfd, hshape, hmissed⟩
  · refine ⟨B, hshape, fun j f q => ?_, fun q hq hm => ?_⟩
    · rw [hmissed, h.bucket j f q]
      by_cases hq : q = p
      · subst hq
        rw [Function.update_self, Function.update_self]
        exact ⟨fun hb => absurd hb.1 (not_linked hp), fun hb => absurd hb.2.2 Bool.false_ne_true.symm⟩
      · rw [Function.update_of_ne hq, Function.update_of_ne hq]
    · rw [hmissed] at hm
      have hqp : q ≠ p := fun he => by
        rw [he, Function.update_self] at hm
        exact Bool.false_ne_true.symm hm
      rw [Function.update_of_ne hqp] at hq hm
      exact h.indexed q hq hm
  · refine ⟨_, hshape, fun j f q => ?_, fun q hq hm => ?_⟩
    · rw [hmissed, mem_update_cons, h.bucket j f q]
      by_cases hq : q = p
      · subst hq
        rw [Function.update_self, Function.update_self]
        constructor
        · rintro (hb | ⟨he, -⟩)
          · exact absurd hb.1 (not_linked hp)
          · obtain ⟨rfl, rfl⟩ := Prod.mk.inj he
            exact ⟨⟨rfl, rfl⟩, (Int.toNat_of_nonneg hfd).symm, rfl⟩
        · rintro ⟨⟨-, rfl⟩, hf, -⟩
          exact .inr ⟨by rw [hf, Int.toNat_natCast], rfl⟩
      · rw [Function.update_of_ne hq, Function.update_of_ne hq]
        exact ⟨fun hb => hb.resolve_right fun he => hq he.2, .inl⟩
    · by_cases hqp : q = p
      · rw [hqp]
        exact hfd
      · rw [hmissed, Function.update_of_ne hqp] at hm
        rw [Function.update_of_ne hqp] at hq
        exact h.indexed q hq hm

theorem Inv.link_deadlines (h : Inv cap s L B) (ok : Bool) :
    (s.deadlines.insert s.deadline (s.pool p) p ok).Shape s.deadline fun j q =>
      (Function.update s.linked p true q = true ∧ s.pool q = j) ∧ 0 ≤ s.deadline q ∧
        (s.deadlines.insert s.deadline (s.pool p) p ok).missed q = false := by
  have hfree : ∀ j, ¬ ((s.linked p = true ∧ s.pool p = j) ∧ 0 ≤ s.deadline p ∧
      s.deadlines.missed p = false) := fun j hj => not_linked hp hj.1
  rcases h.deadlines.insert hfree (s.pool p) ok with ⟨hneg, heq⟩ | ⟨-, hshape, hmissed⟩ |
    ⟨hnn, hshape, hmissed⟩
  · rw [heq]
    refine h.deadlines.congr (fun _ _ _ => rfl) fun j q => ?_
    rw [link_on hp]
    refine and_congr_left fun hq => ?_
    exact ⟨fun hj => hj.resolve_right fun he => by rw [he.2] at hq; omega, .inl⟩
  · refine hshape.congr (fun _ _ _ => rfl) fun j q => ?_
    rw [hmissed]
    by_cases hq : q = p
    · subst hq
      rw [Function.update_self, Function.update_self]
      exact ⟨fun hb => absurd hb.2.2 Bool.false_ne_true.symm, fun hb => absurd hb.1 (not_linked hp)⟩
    · rw [Function.update_of_ne hq, Function.update_of_ne hq]
  · refine hshape.congr (fun _ _ _ => rfl) fun j q => ?_
    rw [hmissed, link_on hp]
    by_cases hq : q = p
    · subst hq
      rw [Function.update_self]
      constructor
      · rintro ⟨hj | hj, -⟩
        · exact absurd hj (not_linked hp)
        · exact .inr hj
      · rintro (hj | hj)
        · exact absurd hj.1 (not_linked hp)
        · exact ⟨.inr hj, hnn, rfl⟩
    · rw [Function.update_of_ne hq]
      simp only [hq, and_false, or_false]

theorem Inv.link (h : Inv cap s L B) (fdOk dhOk : Bool) :
    ∃ C, Inv cap ((s.link cap (s.pool p) p fdOk dhOk).mark p true)
      (Function.update L (s.pool p) (p :: L (s.pool p))) C := by
  obtain ⟨C, hbuckets, hbucket, hindexed⟩ := h.link_buckets hp fdOk
  refine ⟨C, h.lists.link (h.not_mem_list hp) _, fun j q => ?_, hbuckets, hbucket, hindexed,
    h.link_deadlines hp dhOk, fun j => ?_, fun o => ?_⟩
  · rw [mem_update_cons, h.list j q]
    exact (link_on hp j q).symm
  · change (s.count (s.pool p) p 1).total j = _
    rw [count_total, h.total j]
    by_cases hj : j = s.pool p
    · rw [if_pos hj, hj, Function.update_self, List.length_cons, Int.natCast_succ]
    · rw [if_neg hj, Function.update_of_ne hj, Int.add_zero]
  · change (s.count (s.pool p) p 1).parked o = _
    rw [count_parked, h.parked o]
    by_cases hj : poolHubs = s.pool p
    · rw [← hj, Function.update_self]
      exact (counted_cons s p o _).symm
    · rw [Function.update_of_ne hj, if_neg fun hc => hj (pool_of_counted hc).symm, Int.add_zero]
      rfl

end Link

/-! ### Unlink -/

theorem unlink_on (j q : ℕ) :
    Function.update s.linked p false q = true ∧ s.pool q = j ↔
      (s.linked q = true ∧ s.pool q = j) ∧ q ≠ p := by
  by_cases hq : q = p
  · subst hq
    rw [Function.update_self]
    exact ⟨fun hj => absurd hj.1 Bool.false_ne_true, fun hj => absurd rfl hj.2⟩
  · rw [Function.update_of_ne hq]
    exact ⟨fun hj => ⟨hj, hq⟩, And.left⟩

/-- Nothing happens to a parker that is not linked. -/
theorem Inv.unlink_free (h : Inv cap s L B) (hp : s.linked p = false) (i : ℕ) :
    s.unlink cap i p = (s, false) := by
  have hslot := (h.lists.free p (h.not_mem_list hp)).2
  have hprev := (h.buckets.family.free p (h.not_mem_bucket hp)).2
  have hindex := h.deadlines.free p fun j hj => not_linked hp hj.1
  have htouched : ¬ s.touched i p := by
    rintro (hn | hn | hn | hn)
    · exact hn hslot
    · exact hn hprev
    · exact h.buckets.not_heads (h.not_mem_bucket hp) i (s.fd p) hn
    · exact hn hindex
  unfold State.unlink
  rw [if_neg htouched, h.lists.unlink_free (h.not_mem_list hp),
    h.buckets.unlink_free (h.not_mem_bucket hp), Deadlines.remove_of_none hindex]

section Unlink

variable (hp : s.linked p = true)
include hp

theorem Inv.touched (h : Inv cap s L B) : s.touched (s.pool p) p := by
  obtain ⟨q, hslot, -⟩ := Family.remove h.lists ((h.list _ p).mpr ⟨hp, rfl⟩)
  refine .inl ?_
  rw [hslot]
  cases q <;> exact Option.some_ne_none _

theorem Inv.unlink_buckets (h : Inv cap s L B) :
    ∃ C, (s.buckets.unlink cap (s.pool p) p (s.fd p)).Shape cap C ∧
      (s.buckets.unlink cap (s.pool p) p (s.fd p)).missed = s.buckets.missed ∧
      (∀ j f q, q ∈ C (j, f) ↔ q ∈ B (j, f) ∧ q ≠ p) ∧ ∀ k, C k = (B k).erase p := by
  by_cases hm : s.buckets.missed p = false
  · have hfd := h.indexed p hp hm
    have hmem : p ∈ B (s.pool p, (s.fd p).toNat) :=
      (h.bucket _ _ p).mpr ⟨⟨hp, rfl⟩, (Int.toNat_of_nonneg hfd).symm, hm⟩
    obtain ⟨hshape, hmissed⟩ := h.buckets.unlink hfd hmem
    refine ⟨_, hshape, hmissed, fun j f q => h.buckets.family.mem_erase hmem, fun k => ?_⟩
    by_cases hk : k = (s.pool p, (s.fd p).toNat)
    · rw [hk, Function.update_self]
    · rw [Function.update_of_ne hk, List.erase_of_not_mem]
      exact fun hpk => hk (h.buckets.family.disjoint k _ p hpk hmem)
  · have hnot : ∀ k, p ∉ B k := fun k hk => hm ((h.bucket k.1 k.2 p).mp hk).2.2
    rw [h.buckets.unlink_free hnot]
    refine ⟨B, h.buckets, rfl, fun j f q => ⟨fun hq => ⟨hq, fun he => ?_⟩, And.left⟩, fun k => ?_⟩
    · exact hnot (j, f) (he ▸ hq)
    · rw [List.erase_of_not_mem (hnot k)]

theorem Inv.unlink_deadlines (h : Inv cap s L B) :
    (s.deadlines.remove s.deadline (s.pool p) p).missed = s.deadlines.missed ∧
      (s.deadlines.remove s.deadline (s.pool p) p).Shape s.deadline fun j q =>
        (Function.update s.linked p false q = true ∧ s.pool q = j) ∧ 0 ≤ s.deadline q ∧
          s.deadlines.missed q = false := by
  by_cases hon : 0 ≤ s.deadline p ∧ s.deadlines.missed p = false
  · obtain ⟨hshape, -, -, hmissed⟩ := h.deadlines.remove ⟨⟨hp, rfl⟩, hon⟩
    refine ⟨hmissed, hshape.congr (fun _ _ _ => rfl) fun j q => ?_⟩
    rw [unlink_on, and_right_comm]
  · have hnone := h.deadlines.free p fun j hj => hon hj.2
    rw [Deadlines.remove_of_none hnone]
    refine ⟨rfl, h.deadlines.congr (fun _ _ _ => rfl) fun j q => ?_⟩
    rw [unlink_on]
    refine ⟨fun hq => ⟨hq.1.1, hq.2⟩, fun hq => ⟨⟨hq.1, fun he => hon ?_⟩, hq.2⟩⟩
    exact he ▸ hq.2

theorem Inv.unlink (h : Inv cap s L B) :
    ∃ C, Inv cap ((s.unlink cap (s.pool p) p).1.mark p false)
        (Function.update L (s.pool p) ((L (s.pool p)).erase p)) C ∧
      ∀ k, C k = (B k).erase p := by
  have hmem : p ∈ L (s.pool p) := (h.list _ p).mpr ⟨hp, rfl⟩
  have hperm := List.perm_cons_erase hmem
  obtain ⟨C, hbuckets, hmissed, hbucket, herase⟩ := h.unlink_buckets hp
  obtain ⟨hmissed', hdeadlines⟩ := h.unlink_deadlines hp
  unfold State.unlink
  rw [if_pos (h.touched hp)]
  refine ⟨C, ⟨h.lists.unlink hmem, fun j q => ?_, hbuckets, fun j f q => ?_, fun q hq hm => ?_, ?_,
    fun j => ?_, fun o => ?_⟩, herase⟩
  · rw [Family.mem_erase h.lists hmem, h.list j q]
    exact (unlink_on j q).symm
  · rw [hbucket, h.bucket j f q, and_right_comm]
    refine and_congr (unlink_on j q).symm ?_
    change _ ↔ s.fd q = f ∧ (s.buckets.unlink cap (s.pool p) p (s.fd p)).missed q = false
    rw [hmissed]
  · have hq' := ((unlink_on (s.pool q) q).mp ⟨hq, rfl⟩).1.1
    change (s.buckets.unlink cap (s.pool p) p (s.fd p)).missed q = false at hm
    rw [hmissed] at hm
    exact h.indexed q hq' hm
  · refine hdeadlines.congr (fun _ _ _ => rfl) fun j q => ?_
    refine and_congr_right fun _ => and_congr_right fun _ => ?_
    change (s.deadlines.remove s.deadline (s.pool p) p).missed q = false ↔ _
    rw [hmissed']
  · change (s.count (s.pool p) p (-1)).total j = _
    rw [count_total, h.total j]
    by_cases hj : j = s.pool p
    · have hlen := hperm.length_eq
      rw [List.length_cons] at hlen
      rw [if_pos hj, hj, Function.update_self, hlen]
      omega
    · rw [if_neg hj, Function.update_of_ne hj, Int.add_zero]
  · change (s.count (s.pool p) p (-1)).parked o = _
    rw [count_parked, h.parked o]
    by_cases hj : poolHubs = s.pool p
    · rw [← hj] at hperm
      have hcount := counted_cons s p o ((L poolHubs).erase p)
      rw [← hperm.countP_eq] at hcount
      rw [← hj, Function.update_self, hcount]
      change _ = (((L poolHubs).erase p).countP (s.counted o) : ℤ)
      split <;> omega
    · rw [Function.update_of_ne hj, if_neg fun hc => hj (pool_of_counted hc).symm, Int.add_zero]
      rfl

end Unlink

/-! ### Runs -/

theorem step_inv {a : Act} (h : Inv cap s L B) (hstep : step cap s a = some t) :
    ∃ M C, Inv cap t M C := by
  cases a with
  | fill p fd deadline hub owner =>
    obtain ⟨hp, ⟨⟩⟩ := Option.ite_none_left_eq_some.mp hstep
    exact ⟨L, B, h.fill (Bool.not_eq_true _ ▸ hp) fd deadline hub owner⟩
  | link p fdOk dhOk =>
    obtain ⟨hp, ⟨⟩⟩ := Option.ite_none_left_eq_some.mp hstep
    exact ⟨_, h.link (Bool.not_eq_true _ ▸ hp) fdOk dhOk⟩
  | unlink i p =>
    obtain ⟨hi, ⟨⟩⟩ := Option.ite_none_right_eq_some.mp hstep
    cases hp : s.linked p with
    | true =>
      obtain rfl := hi hp
      obtain ⟨C, hinv, -⟩ := h.unlink hp
      exact ⟨_, C, hinv⟩
    | false =>
      have hmark : s.mark p false = s := by rw [State.mark, ← hp, Function.update_eq_self]
      rw [h.unlink_free hp i, hmark]
      exact ⟨L, B, h⟩

theorem reachable_inv (h : Reachable (pools cap) s) : ∃ L B, Inv cap s L B := by
  induction h with
  | start hs =>
    obtain rfl : _ = State.init := hs
    exact ⟨_, _, init_inv⟩
  | next _ hstep ih =>
    obtain ⟨L, B, hinv⟩ := ih
    exact step_inv hinv hstep

/-- The structures of the pools agree on the linked parkers: the lists `L`, the buckets `B`, the
counters, the heap entries, the mask and the counts of the schedulers. -/
structure Agree (cap : ℕ) (s : State) (L : ℕ → List ℕ) (B : ℕ × ℕ → List ℕ) : Prop where
  list : ∀ i, Doubly s.lists.next s.lists.slot (slotOf i) (s.lists.head i) (L i)
  mem_list : ∀ i p, p ∈ L i ↔ s.linked p = true ∧ s.pool p = i
  bucket : ∀ i f, Doubly s.buckets.next s.buckets.prev (fun q => q) (s.buckets.byFd i f) (B (i, f))
  bucket_fd : ∀ i f, ∀ p ∈ B (i, f), s.fd p = f
  mem_bucket : ∀ i p, (∃ f, p ∈ B (i, f)) ↔ p ∈ L i ∧ s.buckets.missed p = false
  total : ∀ i, s.total i = (L i).length
  heap : ∀ i, ∀ p ∈ L i, 0 ≤ s.deadline p → s.deadlines.missed p = false →
    ∃ k, s.deadlines.heapIndex p = some k ∧ k < s.deadlines.size i ∧ s.deadlines.arr i k = p
  no_heap : ∀ p, s.linked p = false → s.deadlines.heapIndex p = none
  mask : ∀ i f, s.buckets.mask f i = true ↔ i < poolHubs ∧ f < cap ∧ ∃ p, p ∈ B (i, f)
  parked : ∀ o, ∃ N : List ℕ, N.Nodup ∧
    (∀ p, p ∈ N ↔ s.linked p = true ∧ s.hub p = none ∧ s.owner p = some o) ∧
    s.parked o = N.length

theorem Inv.agree (h : Inv cap s L B) : Agree cap s L B where
  list := h.lists.doubly
  mem_list := h.list
  bucket i f := h.buckets.family.doubly (i, f)
  bucket_fd i f p hp := ((h.bucket i f p).mp hp).2.1
  mem_bucket i p := by
    rw [h.list i p]
    constructor
    · rintro ⟨f, hp⟩
      obtain ⟨hon, -, hm⟩ := (h.bucket i f p).mp hp
      exact ⟨hon, hm⟩
    · rintro ⟨hon, hm⟩
      have hfd := Int.toNat_of_nonneg (h.indexed p hon.1 hm)
      exact ⟨(s.fd p).toNat, (h.bucket i _ p).mpr ⟨hon, hfd.symm, hm⟩⟩
  total := h.total
  heap i p hp hd hm := h.deadlines.place ⟨(h.list i p).mp hp, hd, hm⟩
  no_heap p hp := h.deadlines.free p fun _ hj => not_linked hp hj.1
  mask i f := by
    rw [h.buckets.mask i f]
    refine and_congr_right fun _ => and_congr_right fun _ => ?_
    exact ⟨List.exists_mem_of_ne_nil _, fun ⟨_, hp⟩ => List.ne_nil_of_mem hp⟩
  parked o := by
    refine ⟨(L poolHubs).filter (s.counted o), (h.lists.doubly poolHubs).nodup.filter _,
      fun p => ?_, ?_⟩
    · rw [List.mem_filter, h.list poolHubs p]
      constructor
      · exact fun hp => ⟨hp.1.1, of_decide_eq_true hp.2⟩
      · exact fun hp => ⟨⟨hp.1, pool_of_counted hp.2⟩, decide_eq_true hp.2⟩
    · rw [h.parked o, List.countP_eq_length_filter]

/-- In every run the structures of the pools agree. -/
theorem pools_agree (h : Reachable (pools cap) s) : ∃ L B, Agree cap s L B := by
  obtain ⟨L, B, hinv⟩ := reachable_inv h
  exact ⟨L, B, hinv.agree⟩

end

/-- Two parkers on the fd `3`, one of them of a hub, and the other one unlinked twice. -/
def twice : List Act :=
  [.fill 1 3 5 none (some 7), .link 1 true true, .fill 2 3 9 (some 0) (some 7), .link 2 true true,
    .unlink 64 1, .unlink 64 1]

theorem pools_agree_twice :
    ∃ s, Reachable (pools 1024) s ∧ s.linked 2 = true ∧ s.total 64 = 0 ∧ s.total 0 = 1 ∧
      ∃ L B, Agree 1024 s L B := by
  have hrun : ((pools 1024).run .init twice).map
      (fun s => (s.linked 2, s.total 64, s.total 0)) = some (true, 0, 1) := by decide +kernel
  obtain ⟨s, hs, hobs⟩ := Option.map_eq_some_iff.mp hrun
  obtain ⟨hlinked, htotal, htotal'⟩ := Prod.mk.inj hobs |>.imp_right Prod.mk.inj
  have hreach := reachable_of_run (pools 1024) twice rfl hs
  exact ⟨s, hreach, hlinked, htotal, htotal', pools_agree hreach⟩

/-- The parker `1` of a hub, then `2` and `3` of the default pool; there is no memory for the
index of `3`. -/
def uncounted : List Act :=
  [.fill 1 3 5 (some 0) (some 7), .link 1 true true, .fill 2 3 9 none (some 8), .link 2 true true,
    .fill 3 5000 9 none (some 8), .link 3 false true]

/-- The scheduler of a hub does not count its parker, the default pool has no bit in the mask,
and a parker may be on the list only. -/
theorem uncounted_agrees_on_less :
    ∃ s, Reachable (pools 1024) s ∧
      (s.linked 1 = true ∧ s.owner 1 = some 7 ∧ s.parked 7 = 0) ∧
      (s.linked 2 = true ∧ s.buckets.byFd 64 3 = some 2 ∧ s.buckets.mask 3 64 = false) ∧
      (s.linked 3 = true ∧ s.fd 3 = 5000 ∧ s.buckets.byFd 64 5000 = none) := by
  have hrun : ((pools 1024).run .init uncounted).map (fun s => decide
      ((s.linked 1 = true ∧ s.owner 1 = some 7 ∧ s.parked 7 = 0) ∧
        (s.linked 2 = true ∧ s.buckets.byFd 64 3 = some 2 ∧ s.buckets.mask 3 64 = false) ∧
        (s.linked 3 = true ∧ s.fd 3 = 5000 ∧ s.buckets.byFd 64 5000 = none))) = some true := by
    decide +kernel
  obtain ⟨s, hs, hobs⟩ := Option.map_eq_some_iff.mp hrun
  exact ⟨s, reachable_of_run (pools 1024) uncounted rfl hs, of_decide_eq_true hobs⟩

end Stackweave.Netpoll.Parkers
