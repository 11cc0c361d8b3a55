import Mathlib
import Stackweave.Transition

/-!
# Generation handles (`rl_handle.c`)

The table of slots, any number of registrations (each with its owner) and any
number of pins of their handles. Every access to `genref`, to `ptr` and
`free_fn`, and every locked section on the free list is one step. The generation
and the reference count are the 32-bit halves of `genref` and wrap as such.

The callers keep their side: an owner releases once, and a pin that returned an
object is unpinned once.
-/

namespace Stackweave.HandleTable

open Transition

/-- The range of each half of `genref`. -/
def span : ℕ := 2 ^ 32

theorem one_lt_span : 1 < span := by decide

/-- Who may hold a reference: the owner of a registration, or a pin call. -/
inductive Token
  | owner (r : ℕ)
  | pin (c : ℕ)
  deriving DecidableEq

/-- `reg` and `refs` are history: the registration last published in the slot,
and the references to it that were taken and not dropped. -/
structure Slot where
  ptr : Option ℕ
  freeFn : Bool
  gen : ℕ
  rc : ℕ
  reg : ℕ
  refs : List Token

/-- `(generation:32 | slot:32)` -/
structure Handle where
  idx : ℕ
  gen : ℕ
  deriving DecidableEq

/-- Where a `rl_handle_deref` stands; the last four are `rl_handle_reclaim`. At
`cas n` the loaded `gr` passed the check: it has the handle's generation and the
count `n + 1`. -/
inductive Deref
  | load
  | cas (n : ℕ)
  | clear
  | bump (ptr : Option ℕ) (freeFn : Bool)
  | free (ptr : Option ℕ) (freeFn : Bool)
  | push
  deriving DecidableEq

/-- Where a registration's owner or a pin call stands. A pin carries the
registration `r` that its handle came from. -/
inductive Pc
  | fresh
  | popped (i : ℕ)
  | loaded (h : Handle)
  | stored (h : Handle)
  /-- `RL_HANDLE_NULL`: no slot -/
  | failed
  | pinLoad (r : ℕ) (h : Handle)
  /-- `gr` passed the check, with the count `n + 1` -/
  | pinCas (r : ℕ) (h : Handle) (n : ℕ)
  | pinRead (r : ℕ) (h : Handle)
  /-- a pin returned `NULL` -/
  | null (r : ℕ) (h : Handle)
  /-- holds a reference; what the pin returned -/
  | holds (r : ℕ) (h : Handle) (p : Option ℕ)
  | deref (r : ℕ) (h : Handle) (wait : Bool) (d : Deref)
  /-- the loop of `rl_handle_release_wait` -/
  | waiting (r : ℕ) (h : Handle)
  | gone (r : ℕ) (h : Handle)
  deriving DecidableEq

/-- `ptrOf`, `fnOf` are the arguments of the registrations; `reclaimed` and
`freed` are history. -/
structure State where
  segBits : ℕ
  maxSegs : ℕ
  segs : ℕ
  slots : ℕ → Slot
  free : List ℕ
  pc : Token → Pc
  ptrOf : ℕ → ℕ
  fnOf : ℕ → Bool
  reclaimed : ℕ → Bool
  freed : List ℕ

def init (segBits maxSegs : ℕ) : State :=
  { segBits := segBits, maxSegs := maxSegs, segs := 0
    slots := fun _ => ⟨none, false, 0, 0, 0, []⟩, free := [], pc := fun _ => .fresh
    ptrOf := fun _ => 0, fnOf := fun _ => false, reclaimed := fun _ => false, freed := [] }

inductive Action
  | register (r ptr : ℕ) (freeFn : Bool)
  | full (r : ℕ)
  | release (r : ℕ) (wait : Bool)
  | pin (c r : ℕ)
  | unpin (c : ℕ)
  | step (t : Token)

def State.goto (s : State) (t : Token) (p : Pc) : State :=
  { s with pc := fun u => if u = t then p else s.pc u }

def State.setSlot (s : State) (i : ℕ) (w : Slot) : State :=
  { s with slots := fun j => if j = i then w else s.slots j }

/-- The number of slots of the table. -/
def State.size (s : State) : ℕ := s.segs * 2 ^ s.segBits

/-- The indices of segment `seg` in the order in which the free list hands them
out; slot 0 is reserved. -/
def segment (segBits seg : ℕ) : List ℕ :=
  ((List.range (2 ^ segBits)).map fun i => seg * 2 ^ segBits + i).reverse.filter fun i => i ≠ 0

/-- `rl_handle_grow_locked`; a new segment is zeroed. -/
def State.grow (s : State) : State :=
  { s with segs := s.segs + 1, free := segment s.segBits s.segs ++ s.free }

/-- The handle that `rl_handle_register` returned to the owner. -/
@[grind =]
def Pc.handle : Pc → Option Handle
  | .holds _ h _ | .deref _ h _ _ | .waiting _ h | .gone _ h => some h
  | _ => none

/-- The locked section of `rl_handle_register`. -/
def State.pop (s : State) (r ptr : ℕ) (freeFn : Bool) : Option State :=
  match s.free with
  | [] => none
  | i :: rest =>
    some ({ s with
      free := rest
      ptrOf := fun q => if q = r then ptr else s.ptrOf q
      fnOf := fun q => if q = r then freeFn else s.fnOf q }.goto (.owner r) (.popped i))

/-- Where `rl_handle_release[_wait]` and `rl_handle_unpin` go on after the deref. -/
def Pc.back (r : ℕ) (h : Handle) (wait : Bool) : Pc :=
  if wait then .waiting r h else .gone r h

/-- `gr` was loaded, by the load or by a failed exchange, and is checked. -/
def derefCheck (s : State) (t : Token) (r : ℕ) (h : Handle) (wait : Bool) : State :=
  let w := s.slots h.idx
  if w.gen ≠ h.gen ∨ w.rc = 0 then s.goto t (Pc.back r h wait)
  else s.goto t (.deref r h wait (.cas (w.rc - 1)))

def pinCheck (s : State) (t : Token) (r : ℕ) (h : Handle) : State :=
  let w := s.slots h.idx
  if w.gen ≠ h.gen ∨ w.rc = 0 then s.goto t (.null r h) else s.goto t (.pinCas r h (w.rc - 1))

/-- The next step of `rl_handle_deref(h)` by the holder `t`. -/
@[grind =]
def derefStep (s : State) (t : Token) (r : ℕ) (h : Handle) (wait : Bool) (d : Deref) : State :=
  let w := s.slots h.idx
  match d with
  | .load => if h.idx < s.size then derefCheck s t r h wait else s.goto t (Pc.back r h wait)
  | .cas n =>
    if w.gen = h.gen ∧ w.rc = n + 1 then
      let s' := s.setSlot h.idx { w with rc := n, refs := w.refs.erase t }
      if n = 0 then
        { s' with reclaimed := fun q => if q = w.reg then true else s.reclaimed q }.goto t
          (.deref r h wait .clear)
      else s'.goto t (Pc.back r h wait)
    else derefCheck s t r h wait
  | .clear =>
    (s.setSlot h.idx { w with ptr := none, freeFn := false }).goto t
      (.deref r h wait (.bump w.ptr w.freeFn))
  | .bump p f =>
    (s.setSlot h.idx { w with gen := (h.gen + 1) % span, rc := 0 }).goto t
      (.deref r h wait (.free p f))
  | .free p f =>
    { s with freed := if f then s.freed ++ p.toList else s.freed }.goto t (.deref r h wait .push)
  | .push => { s with free := h.idx :: s.free }.goto t (Pc.back r h wait)

/-- The next step of a call. -/
def tokenStep (s : State) (t : Token) : Option State :=
  match s.pc t, t with
  | .popped i, _ => some (s.goto t (.loaded ⟨i, (s.slots i).gen⟩))
  | .loaded h, .owner r =>
    some ((s.setSlot h.idx { s.slots h.idx with
      ptr := some (s.ptrOf r), freeFn := s.fnOf r }).goto t (.stored h))
  | .stored h, .owner r =>
    some ((s.setSlot h.idx { s.slots h.idx with
      gen := h.gen, rc := 1, reg := r, refs := [t] }).goto t (.holds r h none))
  | .pinLoad r h, .pin _ =>
    if h.idx < s.size then some (pinCheck s t r h) else some (s.goto t (.null r h))
  | .pinCas r h n, .pin _ =>
    let w := s.slots h.idx
    if w.gen = h.gen ∧ w.rc = n + 1 then
      some ((s.setSlot h.idx { w with rc := (n + 2) % span, refs := t :: w.refs }).goto t
        (.pinRead r h))
    else some (pinCheck s t r h)
  | .pinRead r h, .pin _ => some (s.goto t (.holds r h (s.slots h.idx).ptr))
  | .deref r h wait d, _ => some (derefStep s t r h wait d)
  | .waiting r h, _ => if (s.slots h.idx).gen ≠ h.gen then some (s.goto t (.gone r h)) else none
  | _, _ => none

@[grind =]
def step (s : State) : Action → Option State
  | .register r ptr freeFn =>
    match s.pc (.owner r) with
    | .fresh =>
      if s.free = [] then
        if s.segs < s.maxSegs then s.grow.pop r ptr freeFn else none
      else s.pop r ptr freeFn
    | _ => none
  -- every segment is in use, or `calloc` failed
  | .full r =>
    match s.pc (.owner r) with
    | .fresh => if s.free = [] then some (s.goto (.owner r) .failed) else none
    | _ => none
  | .release r wait =>
    match s.pc (.owner r) with
    | .holds q h _ => some (s.goto (.owner r) (.deref q h wait .load))
    | _ => none
  | .pin c r =>
    match s.pc (.pin c), (s.pc (.owner r)).handle with
    | .fresh, some h => some (s.goto (.pin c) (.pinLoad r h))
    | _, _ => none
  | .unpin c =>
    match s.pc (.pin c) with
    -- a pin that returned `NULL` has nothing to drop
    | .holds r h (some _) => some (s.goto (.pin c) (.deref r h false .load))
    | _ => none
  | .step t => tokenStep s t

def system (segBits maxSegs : ℕ) : System State Action where
  init s := s = init segBits maxSegs
  step := step

/-- The step bumps a generation past its 32 bits. -/
def wraps (s : State) : Action → Bool
  | .step t =>
    match s.pc t with
    | .deref _ h _ (.bump _ _) => decide (span ≤ h.gen + 1)
    | _ => false
  | _ => false

/-- The runs in which no generation wraps. -/
def unwrapped (segBits maxSegs : ℕ) : System State Action :=
  (system segBits maxSegs).restrict fun s a => wraps s a = false

/-! ## What a call has in hand -/

/-- The reference that a call holds. -/
def Pc.ref : Pc → Option (ℕ × Handle)
  | .pinRead r h | .holds r h _ | .deref r h _ .load | .deref r h _ (.cas _) => some (r, h)
  | _ => none

/-- The slot that only this call may touch: it is being registered or reclaimed. -/
def Pc.excl : Pc → Option ℕ
  | .popped i => some i
  | .loaded h | .stored h => some h.idx
  | .deref _ _ _ .load | .deref _ _ _ (.cas _) => none
  | .deref _ h _ _ => some h.idx
  | _ => none

/-- A reclaim that has not bumped the generation yet. -/
def Pc.closing : Pc → Option Handle
  | .deref _ h _ .clear | .deref _ h _ (.bump _ _) => some h
  | _ => none

/-- A registration that has loaded its generation. -/
def Pc.filling : Pc → Option Handle
  | .loaded h | .stored h => some h
  | _ => none

/-- The registration and handle that a call is about. -/
def Pc.aim : Pc → Option (ℕ × Handle)
  | .pinLoad r h | .pinCas r h _ | .pinRead r h | .null r h | .holds r h _ | .deref r h _ _
  | .waiting r h | .gone r h => some (r, h)
  | _ => none

variable {p : Pc} {h a : Handle} {s t : State} {i r n segBits maxSegs : ℕ} {k : Token}
  {wait : Bool} {d : Deref} {x : Action}

theorem Pc.aim_of_ref {x : ℕ × Handle} (h : p.ref = some x) : p.aim = some x := by
  unfold Pc.ref at h
  split at h
  case h_5 => cases h
  all_goals exact h

theorem Pc.closing_excl (hp : p.closing = some h) :
    p.excl = some h.idx := by
  unfold Pc.closing at hp
  split at hp
  case h_3 => cases hp
  all_goals
    cases hp
    rfl

theorem Pc.filling_excl (hp : p.filling = some h) :
    p.excl = some h.idx := by
  unfold Pc.filling at hp
  split at hp
  case h_3 => cases hp
  all_goals
    cases hp
    rfl

theorem Pc.excl_of_ref {x : ℕ × Handle} (hp : p.ref = some x) : p.excl = none := by
  unfold Pc.ref at hp
  split at hp
  case h_5 => cases hp
  all_goals rfl

theorem Pc.back_ref (r : ℕ) (h : Handle) (wait : Bool) : (Pc.back r h wait).ref = none := by
  cases wait <;> rfl

theorem Pc.back_excl (r : ℕ) (h : Handle) (wait : Bool) : (Pc.back r h wait).excl = none := by
  cases wait <;> rfl

theorem Pc.back_handle (r : ℕ) (h : Handle) (wait : Bool) :
    (Pc.back r h wait).handle = some h := by
  cases wait <;> rfl

theorem Pc.back_aim (r : ℕ) (h : Handle) (wait : Bool) :
    (Pc.back r h wait).aim = some (r, h) := by
  cases wait <;> rfl

theorem Pc.back_ne_holds (r : ℕ) (h : Handle) (wait : Bool) (q : ℕ) (b : Handle)
    (p : Option ℕ) : Pc.back r h wait ≠ .holds q b p := by
  cases wait <;> rintro ⟨⟩

/-- The generations of one slot: those of earlier registrations are smaller than
the slot's, and the slot's own belongs to the one it holds, or to one whose
reclaim is on its way to the bump. -/
def Past (s : State) (r : ℕ) (h : Handle) : Prop :=
  h.gen < (s.slots h.idx).gen ∨ h.gen = (s.slots h.idx).gen ∧
    ((s.slots h.idx).refs ≠ [] ∧ (s.slots h.idx).reg = r ∨
      (s.slots h.idx).refs = [] ∧ ∃ t k, (s.pc t).closing = some k ∧ k.idx = h.idx)

structure Inv (s : State) : Prop where
  count : ∀ i, (s.slots i).rc = (s.slots i).refs.length % span ∧ (s.slots i).refs.length ≤ span
  nodup : ∀ i, (s.slots i).refs.Nodup
  current : ∀ i, (s.slots i).refs ≠ [] →
    (s.pc (.owner (s.slots i).reg)).handle = some ⟨i, (s.slots i).gen⟩ ∧
    (s.slots i).ptr = some (s.ptrOf (s.slots i).reg) ∧
    s.reclaimed (s.slots i).reg = false ∧ i < s.size
  holder : ∀ t r h, (s.pc t).ref = some (r, h) →
    t ∈ (s.slots h.idx).refs ∧ (s.slots h.idx).reg = r ∧ (s.slots h.idx).gen = h.gen
  -- a reference outlives its call only in a slot whose count has overflowed
  spent : ∀ i t, t ∈ (s.slots i).refs →
    (∃ r h, (s.pc t).ref = some (r, h) ∧ h.idx = i) ∨ (s.slots i).refs.length = span
  alone : ∀ t i, (s.pc t).excl = some i →
    (s.slots i).refs = [] ∧ i ∉ s.free ∧ i < s.size ∧ ∀ u, (s.pc u).excl = some i → u = t
  free : s.free.Nodup ∧ ∀ i ∈ s.free, (s.slots i).refs = [] ∧ i < s.size
  past : ∀ r h, (s.pc (.owner r)).handle = some h → Past s r h
  closing : ∀ t h, (s.pc t).closing = some h → h.gen = (s.slots h.idx).gen
  filling : ∀ t h, (s.pc t).filling = some h → h.gen = (s.slots h.idx).gen
  stored : ∀ r h, s.pc (.owner r) = .stored h → (s.slots h.idx).ptr = some (s.ptrOf r)
  aim : ∀ t r h, (s.pc t).aim = some (r, h) → (s.pc (.owner r)).handle = some h
  held : ∀ c r h p, s.pc (.pin c) = .holds r h p → p = some (s.ptrOf r)
  reclaimed : ∀ r, s.reclaimed r = true → (s.pc (.owner r)).handle ≠ none

/-- A free slot belongs to no call. -/
theorem Inv.not_excl (h : Inv s) (hi : i ∈ s.free) (t : Token) :
    (s.pc t).excl ≠ some i :=
  fun he => (h.alone t i he).2.1 hi

/-- `rc` is 0 just when nobody holds the slot, or when the count has overflowed. -/
theorem Inv.rc_zero (h : Inv s) :
    (s.slots i).rc = 0 ↔ (s.slots i).refs = [] ∨ (s.slots i).refs.length = span := by
  obtain ⟨hrc, hle⟩ := h.count i
  rw [hrc]
  constructor
  · intro hz
    rcases Nat.lt_or_ge (s.slots i).refs.length span with hlt | hge
    · rw [Nat.mod_eq_of_lt hlt] at hz
      exact .inl (List.length_eq_zero_iff.mp hz)
    · exact .inr (Nat.le_antisymm hle hge)
  · rintro (he | he)
    · rw [he]
      rfl
    · rw [he]
      exact Nat.mod_self span

/-- The handle of a registration that the slot does not hold any more finds
another generation or a count of 0. -/
theorem Inv.resolves (h : Inv s) {k : Handle}
    (hk : (s.pc (.owner r)).handle = some k) (hg : (s.slots k.idx).gen = k.gen)
    (hrc : (s.slots k.idx).rc ≠ 0) : (s.slots k.idx).refs ≠ [] ∧ (s.slots k.idx).reg = r := by
  rcases h.past r k hk with hlt | ⟨-, hlive | ⟨hempty, -⟩⟩
  · rw [hg] at hlt
    exact absurd hlt (Nat.lt_irrefl _)
  · exact hlive
  · exact absurd (h.rc_zero.mpr (.inl hempty)) hrc

/-! ## Steps that leave the slots alone -/

theorem Inv.move (h : Inv s)
    (hpc : t.pc = fun u => if u = k then p else s.pc u) (hslots : t.slots = s.slots)
    (hfree : t.free = s.free) (hsize : t.size = s.size) (hptr : t.ptrOf = s.ptrOf)
    (hrec : t.reclaimed = s.reclaimed)
    (href : p.ref = (s.pc k).ref ∨
      p.ref = none ∧ ∀ i, k ∈ (s.slots i).refs → (s.slots i).refs.length = span)
    (hexcl : p.excl = (s.pc k).excl) (hclosing : p.closing = (s.pc k).closing)
    (hfill : ∀ a, p.filling = some a → a.gen = (s.slots a.idx).gen)
    (hstored : ∀ a, p ≠ .stored a)
    (hhandle : ∀ r, k = .owner r → p.handle = (s.pc k).handle)
    (haim : ∀ r a, p.aim = some (r, a) → (s.pc (.owner r)).handle = some a)
    (hheld : ∀ c r a q, k = .pin c → p = .holds r a q → q = some (s.ptrOf r)) : Inv t := by
  have hself : t.pc k = p := by simp [hpc]
  have hother : ∀ u, u ≠ k → t.pc u = s.pc u := fun u hu => by simp [hpc, hu]
  have hhan : ∀ r, (t.pc (.owner r)).handle = (s.pc (.owner r)).handle := by
    intro r
    by_cases hr : Token.owner r = k
    · rw [hr, hself]
      exact hhandle r hr.symm
    · rw [hother _ hr]
  have hexc : ∀ u, (t.pc u).excl = (s.pc u).excl := by
    intro u
    by_cases hu : u = k
    · rw [hu, hself]
      exact hexcl
    · rw [hother u hu]
  have hclo : ∀ u, (t.pc u).closing = (s.pc u).closing := by
    intro u
    by_cases hu : u = k
    · rw [hu, hself]
      exact hclosing
    · rw [hother u hu]
  constructor
  case count => rw [hslots]; exact h.count
  case nodup => rw [hslots]; exact h.nodup
  case current =>
    intro i hi
    rw [hslots] at hi ⊢
    rw [hhan, hptr, hrec, hsize]
    exact h.current i hi
  case holder =>
    intro u r a hu
    rw [hslots]
    by_cases huk : u = k
    · subst huk
      rw [hself] at hu
      rcases href with hr | ⟨hr, -⟩
      · exact h.holder u r a (hr ▸ hu)
      · rw [hr] at hu
        cases hu
    · exact h.holder u r a (by rw [← hother u huk]; exact hu)
  case spent =>
    intro i u hu
    rw [hslots] at hu ⊢
    by_cases huk : u = k
    · subst huk
      rw [hself]
      rcases href with hr | ⟨-, hfull⟩
      · rw [hr]
        exact h.spent i u hu
      · exact .inr (hfull i hu)
    · rw [hother u huk]
      exact h.spent i u hu
  case alone =>
    intro u i hu
    rw [hexc] at hu
    rw [hslots, hfree, hsize]
    obtain ⟨hr, hf, hlt, hone⟩ := h.alone u i hu
    exact ⟨hr, hf, hlt, fun v hv => hone v (by rw [← hexc]; exact hv)⟩
  case free => rw [hslots, hfree, hsize]; exact h.free
  case past =>
    intro r a ha
    rw [hhan] at ha
    unfold Past
    rw [hslots]
    refine (h.past r a ha).imp_right fun ⟨hg, hc⟩ => ⟨hg, hc.imp_right fun ⟨he, u, b, hb, hi⟩ => ?_⟩
    exact ⟨he, u, b, by rw [hclo]; exact hb, hi⟩
  case closing =>
    intro u a ha
    rw [hslots]
    exact h.closing u a (by rw [← hclo]; exact ha)
  case filling =>
    intro u a ha
    rw [hslots]
    by_cases huk : u = k
    · subst huk
      exact hfill a (hself ▸ ha)
    · exact h.filling u a (by rw [← hother u huk]; exact ha)
  case stored =>
    intro r a ha
    rw [hslots, hptr]
    by_cases hr : Token.owner r = k
    · rw [hr, hself] at ha
      exact absurd ha (hstored a)
    · exact h.stored r a (by rw [← hother _ hr]; exact ha)
  case aim =>
    intro u r a ha
    rw [hhan]
    by_cases huk : u = k
    · subst huk
      exact haim r a (hself ▸ ha)
    · exact h.aim u r a (by rw [← hother u huk]; exact ha)
  case held =>
    intro c r a q hq
    rw [hptr]
    by_cases hc : Token.pin c = k
    · rw [hc, hself] at hq
      exact hheld c r a q hc.symm hq
    · exact h.held c r a q (by rw [← hother _ hc]; exact hq)
  case reclaimed =>
    intro r hr
    rw [hhan]
    exact h.reclaimed r (hrec ▸ hr)

/-- A call at a program point with the same reference, slot and aim. -/
theorem Inv.same (h : Inv s)
    (hpc : t.pc = fun u => if u = k then p else s.pc u) (hslots : t.slots = s.slots)
    (hfree : t.free = s.free) (hsize : t.size = s.size) (hptr : t.ptrOf = s.ptrOf)
    (hrec : t.reclaimed = s.reclaimed) (href : p.ref = (s.pc k).ref)
    (hexcl : p.excl = (s.pc k).excl) (hclosing : p.closing = (s.pc k).closing)
    (hfill : p.filling = none) (hhandle : ∀ r, k = .owner r → p.handle = (s.pc k).handle)
    (haim : p.aim = (s.pc k).aim) (hheld : ∀ r a q, p ≠ .holds r a q) : Inv t := by
  refine h.move hpc hslots hfree hsize hptr hrec (.inl href) hexcl hclosing ?_ ?_ hhandle ?_ ?_
  · intro a ha
    rw [hfill] at ha
    cases ha
  · intro a ha
    rw [ha] at hfill
    cases hfill
  · intro r a ha
    exact h.aim k r a (haim ▸ ha)
  · intro c r a q _ hp
    exact absurd hp (hheld r a q)

/-! ## Steps on a slot of its own -/

/-- A call writes the slot that only it may touch, and keeps it. -/
theorem Inv.touch (h : Inv s) {w : Slot}
    (hk : (s.pc k).excl = some i)
    (hpc : t.pc = fun u => if u = k then p else s.pc u)
    (hslots : t.slots = fun j => if j = i then w else s.slots j)
    (hfree : t.free = s.free) (hsize : t.size = s.size) (hptr : t.ptrOf = s.ptrOf)
    (hrec : t.reclaimed = s.reclaimed) (hrefs : w.refs = []) (hrc : w.rc = 0)
    (hexcl : p.excl = some i) (href : p.ref = none)
    (hclosing : ∀ a, p.closing = some a → a.gen = w.gen)
    (hfill : ∀ a, p.filling = some a → a.gen = w.gen)
    (hstored : ∀ r a, k = .owner r → p = .stored a → w.ptr = some (s.ptrOf r))
    (hgen : (s.slots i).gen < w.gen ∨
      w.gen = (s.slots i).gen ∧ ((s.pc k).closing ≠ none → p.closing ≠ none))
    (hhandle : ∀ r, k = .owner r → p.handle = (s.pc k).handle)
    (haim : p.aim = (s.pc k).aim) (hheld : ∀ r a q, p ≠ .holds r a q) : Inv t := by
  have hself : t.pc k = p := by simp [hpc]
  have hother : ∀ u, u ≠ k → t.pc u = s.pc u := fun u hu => by simp [hpc, hu]
  have hat : t.slots i = w := by simp [hslots]
  have helse : ∀ j, j ≠ i → t.slots j = s.slots j := fun j hj => by simp [hslots, hj]
  obtain ⟨hempty, hnf, hlt, hone⟩ := h.alone k i hk
  have hhan : ∀ r, (t.pc (.owner r)).handle = (s.pc (.owner r)).handle := by
    intro r
    by_cases hr : Token.owner r = k
    · rw [hr, hself]
      exact hhandle r hr.symm
    · rw [hother _ hr]
  have hexc : ∀ u, (t.pc u).excl = (s.pc u).excl := by
    intro u
    by_cases hu : u = k
    · rw [hu, hself, hexcl, hk]
    · rw [hother u hu]
  -- nobody else is closing or filling the slot
  have hclear : ∀ u a, u ≠ k → (s.pc u).closing = some a → a.idx ≠ i := by
    intro u a hu ha hi
    exact hu (hone u (hi ▸ Pc.closing_excl ha))
  constructor
  case count =>
    intro j
    by_cases hj : j = i
    · rw [hj, hat, hrefs, hrc]
      exact ⟨rfl, Nat.zero_le _⟩
    · rw [helse j hj]
      exact h.count j
  case nodup =>
    intro j
    by_cases hj : j = i
    · rw [hj, hat, hrefs]
      exact List.nodup_nil
    · rw [helse j hj]
      exact h.nodup j
  case current =>
    intro j hne
    by_cases hj : j = i
    · rw [hj, hat, hrefs] at hne
      exact absurd rfl hne
    · rw [helse j hj] at hne ⊢
      rw [hhan, hptr, hrec, hsize]
      exact h.current j hne
  case holder =>
    intro u r a hu
    have huk : u ≠ k := by
      rintro rfl
      rw [hself, href] at hu
      cases hu
    rw [hother u huk] at hu
    obtain ⟨hmem, hreg, hg⟩ := h.holder u r a hu
    have ha : a.idx ≠ i := by
      intro ha
      rw [ha, hempty] at hmem
      cases hmem
    rw [helse _ ha]
    exact ⟨hmem, hreg, hg⟩
  case spent =>
    intro j u hu
    by_cases hj : j = i
    · rw [hj, hat, hrefs] at hu
      cases hu
    · rw [helse j hj] at hu ⊢
      by_cases huk : u = k
      · subst huk
        refine (h.spent j u hu).imp_left fun ⟨r, a, ha, hi⟩ => ?_
        rw [Pc.excl_of_ref ha] at hk
        cases hk
      · rw [hother u huk]
        exact h.spent j u hu
  case alone =>
    intro u j hu
    rw [hexc] at hu
    obtain ⟨hr, hf, hj, huniq⟩ := h.alone u j hu
    rw [hfree, hsize]
    refine ⟨?_, hf, hj, fun v hv => huniq v (by rw [← hexc]; exact hv)⟩
    by_cases hji : j = i
    · rw [hji, hat, hrefs]
    · rw [helse j hji]
      exact hr
  case free =>
    rw [hfree, hsize]
    refine ⟨h.free.1, fun j hj => ?_⟩
    have hji : j ≠ i := by
      rintro rfl
      exact hnf hj
    rw [helse j hji]
    exact h.free.2 j hj
  case past =>
    intro r a ha
    rw [hhan] at ha
    unfold Past
    by_cases hai : a.idx = i
    · rw [hai, hat]
      have hp := h.past r a ha
      unfold Past at hp
      rw [hai] at hp
      rcases hp with hlt | ⟨heq, ⟨hne, -⟩ | ⟨-, u, b, hb, hbi⟩⟩
      · rcases hgen with hg | ⟨hg, -⟩
        · exact .inl (Nat.lt_trans hlt hg)
        · exact .inl (hg ▸ hlt)
      · exact absurd hempty hne
      · rcases hgen with hg | ⟨hg, hcl⟩
        · exact .inl (heq ▸ hg)
        · refine .inr ⟨heq.trans hg.symm, .inr ⟨hrefs, k, ?_⟩⟩
          have huk : u = k := hone u (hbi ▸ Pc.closing_excl hb)
          subst huk
          obtain ⟨c, hc⟩ := Option.ne_none_iff_exists'.mp (hcl (by rw [hb]; rintro ⟨⟩))
          refine ⟨c, by rw [hself]; exact hc, ?_⟩
          have := Pc.closing_excl hc
          rw [hexcl] at this
          exact (Option.some.inj this).symm
    · rw [helse _ hai]
      refine (h.past r a ha).imp_right fun ⟨hg, hc⟩ =>
        ⟨hg, hc.imp_right fun ⟨he, u, b, hb, hbi⟩ => ⟨he, u, b, ?_, hbi⟩⟩
      have huk : u ≠ k := by
        rintro rfl
        have := Pc.closing_excl hb
        rw [hk] at this
        exact hai (hbi ▸ (Option.some.inj this).symm)
      rw [hother u huk]
      exact hb
  case closing =>
    intro u a ha
    by_cases huk : u = k
    · subst huk
      rw [hself] at ha
      have := Pc.closing_excl ha
      rw [hexcl] at this
      rw [← Option.some.inj this, hat]
      exact hclosing a ha
    · rw [hother u huk] at ha
      rw [helse _ (hclear u a huk ha)]
      exact h.closing u a ha
  case filling =>
    intro u a ha
    by_cases huk : u = k
    · subst huk
      rw [hself] at ha
      have := Pc.filling_excl ha
      rw [hexcl] at this
      rw [← Option.some.inj this, hat]
      exact hfill a ha
    · rw [hother u huk] at ha
      have hai : a.idx ≠ i := fun hai => huk (hone u (hai ▸ Pc.filling_excl ha))
      rw [helse _ hai]
      exact h.filling u a ha
  case stored =>
    intro r a ha
    rw [hptr]
    by_cases hr : Token.owner r = k
    · rw [hr, hself] at ha
      have hi : p.excl = some a.idx := by rw [ha]; rfl
      rw [hexcl] at hi
      rw [← Option.some.inj hi, hat]
      exact hstored r a hr.symm ha
    · rw [hother _ hr] at ha
      have hai : a.idx ≠ i := fun hai => hr (hone _ (by rw [ha, ← hai]; rfl))
      rw [helse _ hai]
      exact h.stored r a ha
  case aim =>
    intro u r a ha
    rw [hhan]
    by_cases huk : u = k
    · subst huk
      exact h.aim u r a (haim ▸ hself ▸ ha)
    · exact h.aim u r a (by rw [← hother u huk]; exact ha)
  case held =>
    intro c r a q hq
    rw [hptr]
    by_cases hc : Token.pin c = k
    · rw [hc, hself] at hq
      exact absurd hq (hheld r a q)
    · exact h.held c r a q (by rw [← hother _ hc]; exact hq)
  case reclaimed =>
    intro r hr
    rw [hhan]
    exact h.reclaimed r (hrec ▸ hr)

/-! ## Steps on the count -/

/-- A reference is taken or dropped in a slot that stays live. -/
theorem Inv.recount (h : Inv s) {l : List Token}
    (hpc : t.pc = fun u => if u = k then p else s.pc u)
    (hslots : t.slots = fun j =>
      if j = i then { s.slots i with rc := n, refs := l } else s.slots j)
    (hfree : t.free = s.free) (hsize : t.size = s.size) (hptr : t.ptrOf = s.ptrOf)
    (hrec : t.reclaimed = s.reclaimed) (hlive : (s.slots i).refs ≠ [])
    (hfull : (s.slots i).refs.length ≠ span) (hl : l ≠ []) (hn : n = l.length % span)
    (hle : l.length ≤ span) (hnd : l.Nodup)
    (hmem : ∀ u, u ≠ k → (u ∈ l ↔ u ∈ (s.slots i).refs))
    (hkl : k ∈ l → ∃ r a, p.ref = some (r, a) ∧ a.idx = i)
    (href : ∀ r a, p.ref = some (r, a) →
      a.idx = i ∧ k ∈ l ∧ (s.slots i).reg = r ∧ (s.slots i).gen = a.gen)
    (hkother : ∀ j, k ∈ (s.slots j).refs → j = i ∨ (s.slots j).refs.length = span)
    (hexcl : p.excl = none) (hexcl0 : (s.pc k).excl = none)
    (hhandle : ∀ r, k = .owner r → p.handle = (s.pc k).handle)
    (haim : p.aim = (s.pc k).aim) (hheld : ∀ r a q, p ≠ .holds r a q) : Inv t := by
  have hself : t.pc k = p := by simp [hpc]
  have hother : ∀ u, u ≠ k → t.pc u = s.pc u := fun u hu => by simp [hpc, hu]
  have hat : t.slots i = { s.slots i with rc := n, refs := l } := by simp [hslots]
  have helse : ∀ j, j ≠ i → t.slots j = s.slots j := fun j hj => by simp [hslots, hj]
  have hhan : ∀ r, (t.pc (.owner r)).handle = (s.pc (.owner r)).handle := by
    intro r
    by_cases hr : Token.owner r = k
    · rw [hr, hself]
      exact hhandle r hr.symm
    · rw [hother _ hr]
  have hexc : ∀ u, (t.pc u).excl = (s.pc u).excl := by
    intro u
    by_cases hu : u = k
    · rw [hu, hself, hexcl, hexcl0]
    · rw [hother u hu]
  have hreg : ∀ j, (t.slots j).reg = (s.slots j).reg := by
    intro j
    by_cases hj : j = i
    · rw [hj, hat]
    · rw [helse j hj]
  have hgen : ∀ j, (t.slots j).gen = (s.slots j).gen := by
    intro j
    by_cases hj : j = i
    · rw [hj, hat]
    · rw [helse j hj]
  have hpt : ∀ j, (t.slots j).ptr = (s.slots j).ptr := by
    intro j
    by_cases hj : j = i
    · rw [hj, hat]
    · rw [helse j hj]
  have hnil : ∀ j, (t.slots j).refs = [] ↔ (s.slots j).refs = [] := by
    intro j
    by_cases hj : j = i
    · rw [hj, hat]
      exact ⟨fun he => absurd he hl, fun he => absurd he hlive⟩
    · rw [helse j hj]
  have hclo : ∀ u a, (t.pc u).closing = some a ↔ (s.pc u).closing = some a := by
    intro u a
    by_cases hu : u = k
    · subst hu
      rw [hself]
      constructor
      · intro ha
        rw [Pc.closing_excl ha] at hexcl
        cases hexcl
      · intro ha
        rw [Pc.closing_excl ha] at hexcl0
        cases hexcl0
    · rw [hother u hu]
  constructor
  case count =>
    intro j
    by_cases hj : j = i
    · rw [hj, hat]
      exact ⟨hn, hle⟩
    · rw [helse j hj]
      exact h.count j
  case nodup =>
    intro j
    by_cases hj : j = i
    · rw [hj, hat]
      exact hnd
    · rw [helse j hj]
      exact h.nodup j
  case current =>
    intro j hne
    rw [hreg, hgen, hpt, hhan, hptr, hrec, hsize]
    exact h.current j (fun he => hne ((hnil j).mpr he))
  case holder =>
    intro u r a hu
    rw [hreg, hgen]
    by_cases huk : u = k
    · subst huk
      rw [hself] at hu
      obtain ⟨hi, hin, hr, hg⟩ := href r a hu
      rw [hi, hat]
      exact ⟨hin, hr, hg⟩
    · rw [hother u huk] at hu
      obtain ⟨hin, hr, hg⟩ := h.holder u r a hu
      refine ⟨?_, hr, hg⟩
      by_cases hi : a.idx = i
      · rw [hi] at hin ⊢
        rw [hat]
        exact (hmem u huk).mpr hin
      · rw [helse _ hi]
        exact hin
  case spent =>
    intro j u hu
    by_cases hj : j = i
    · subst hj
      rw [hat] at hu
      by_cases huk : u = k
      · subst huk
        rw [hself]
        exact .inl (hkl hu)
      · rw [hother u huk]
        rcases h.spent j u ((hmem u huk).mp hu) with hs | hs
        · exact .inl hs
        · exact absurd hs hfull
    · rw [helse j hj] at hu ⊢
      by_cases huk : u = k
      · subst huk
        exact .inr ((hkother j hu).resolve_left hj)
      · rw [hother u huk]
        exact h.spent j u hu
  case alone =>
    intro u j hu
    rw [hexc] at hu
    obtain ⟨hr, hf, hj, huniq⟩ := h.alone u j hu
    rw [hfree, hsize]
    exact ⟨(hnil j).mpr hr, hf, hj, fun v hv => huniq v (by rw [← hexc]; exact hv)⟩
  case free =>
    rw [hfree, hsize]
    exact ⟨h.free.1, fun j hj => ⟨(hnil j).mpr (h.free.2 j hj).1, (h.free.2 j hj).2⟩⟩
  case past =>
    intro r a ha
    rw [hhan] at ha
    unfold Past
    rw [hgen, hreg]
    refine (h.past r a ha).imp_right fun ⟨hg, hc⟩ => ⟨hg, hc.imp ?_ ?_⟩
    · exact fun ⟨hne, hr⟩ => ⟨fun he => hne ((hnil _).mp he), hr⟩
    · exact fun ⟨he, u, b, hb, hbi⟩ => ⟨(hnil _).mpr he, u, b, (hclo u b).mpr hb, hbi⟩
  case closing =>
    intro u a ha
    rw [hgen]
    exact h.closing u a ((hclo u a).mp ha)
  case filling =>
    intro u a ha
    rw [hgen]
    by_cases huk : u = k
    · subst huk
      rw [hself] at ha
      rw [Pc.filling_excl ha] at hexcl
      cases hexcl
    · exact h.filling u a (by rw [← hother u huk]; exact ha)
  case stored =>
    intro r a ha
    rw [hpt, hptr]
    by_cases hr : Token.owner r = k
    · rw [hr, hself] at ha
      rw [ha] at hexcl
      cases hexcl
    · exact h.stored r a (by rw [← hother _ hr]; exact ha)
  case aim =>
    intro u r a ha
    rw [hhan]
    by_cases huk : u = k
    · subst huk
      exact h.aim u r a (haim ▸ hself ▸ ha)
    · exact h.aim u r a (by rw [← hother u huk]; exact ha)
  case held =>
    intro c r a q hq
    rw [hptr]
    by_cases hc : Token.pin c = k
    · rw [hc, hself] at hq
      exact absurd hq (hheld r a q)
    · exact h.held c r a q (by rw [← hother _ hc]; exact hq)
  case reclaimed =>
    intro r hr
    rw [hhan]
    exact h.reclaimed r (hrec ▸ hr)

/-- The last reference is dropped: the slot is the caller's to reclaim. -/
theorem Inv.last (h : Inv s)
    (hpc : t.pc = fun u => if u = k then p else s.pc u)
    (hslots : t.slots = fun j =>
      if j = i then { s.slots i with rc := 0, refs := [] } else s.slots j)
    (hfree : t.free = s.free) (hsize : t.size = s.size) (hptr : t.ptrOf = s.ptrOf)
    (hrec : t.reclaimed = fun q => if q = (s.slots i).reg then true else s.reclaimed q)
    (hone : (s.slots i).refs = [k]) (hai : a.idx = i) (hag : a.gen = (s.slots i).gen)
    (hexcl : p.excl = some i) (hclosing : p.closing = some a) (hfill : p.filling = none)
    (href : p.ref = none) (hexcl0 : (s.pc k).excl = none)
    (hkother : ∀ j, k ∈ (s.slots j).refs → j = i ∨ (s.slots j).refs.length = span)
    (hhandle : ∀ r, k = .owner r → p.handle = (s.pc k).handle)
    (haim : p.aim = (s.pc k).aim) (hheld : ∀ r a q, p ≠ .holds r a q) : Inv t := by
  have hself : t.pc k = p := by simp [hpc]
  have hother : ∀ u, u ≠ k → t.pc u = s.pc u := fun u hu => by simp [hpc, hu]
  have hat : t.slots i = { s.slots i with rc := 0, refs := [] } := by simp [hslots]
  have helse : ∀ j, j ≠ i → t.slots j = s.slots j := fun j hj => by simp [hslots, hj]
  have hlive : (s.slots i).refs ≠ [] := by
    rw [hone]
    rintro ⟨⟩
  have hhan : ∀ r, (t.pc (.owner r)).handle = (s.pc (.owner r)).handle := by
    intro r
    by_cases hr : Token.owner r = k
    · rw [hr, hself]
      exact hhandle r hr.symm
    · rw [hother _ hr]
  have hgen : ∀ j, (t.slots j).gen = (s.slots j).gen := by
    intro j
    by_cases hj : j = i
    · rw [hj, hat]
    · rw [helse j hj]
  have hpt : ∀ j, (t.slots j).ptr = (s.slots j).ptr := by
    intro j
    by_cases hj : j = i
    · rw [hj, hat]
    · rw [helse j hj]
  have hold : ∀ u b, u ≠ k → (s.pc u).ref = some b → b.2.idx ≠ i := by
    intro u b hu hb hi
    have hmem := (h.holder u b.1 b.2 hb).1
    rw [hi, hone] at hmem
    exact hu (List.mem_singleton.mp hmem)
  have hnx : ∀ u, u ≠ k → (s.pc u).excl ≠ some i := fun u _ hx => hlive (h.alone u i hx).1
  constructor
  case count =>
    intro j
    by_cases hj : j = i
    · rw [hj, hat]
      exact ⟨rfl, Nat.zero_le _⟩
    · rw [helse j hj]
      exact h.count j
  case nodup =>
    intro j
    by_cases hj : j = i
    · rw [hj, hat]
      exact List.nodup_nil
    · rw [helse j hj]
      exact h.nodup j
  case current =>
    intro j hne
    by_cases hj : j = i
    · rw [hj, hat] at hne
      exact absurd rfl hne
    · rw [helse j hj] at hne ⊢
      obtain ⟨hh, hp, hr, hlt⟩ := h.current j hne
      rw [hhan, hptr, hrec, hsize]
      refine ⟨hh, hp, ?_, hlt⟩
      -- one registration is live in one slot only
      have hreg : (s.slots j).reg ≠ (s.slots i).reg := by
        intro he
        rw [he, (h.current i hlive).1] at hh
        exact hj (congrArg Handle.idx (Option.some.inj hh)).symm
      simpa [hreg] using hr
  case holder =>
    intro u r b hu
    have huk : u ≠ k := by
      rintro rfl
      rw [hself, href] at hu
      cases hu
    rw [hother u huk] at hu
    rw [helse _ (hold u _ huk hu)]
    exact h.holder u r b hu
  case spent =>
    intro j u hu
    by_cases hj : j = i
    · rw [hj, hat] at hu
      cases hu
    · rw [helse j hj] at hu ⊢
      by_cases huk : u = k
      · subst huk
        exact .inr ((hkother j hu).resolve_left hj)
      · rw [hother u huk]
        exact h.spent j u hu
  case alone =>
    intro u j hu
    by_cases huk : u = k
    · subst huk
      rw [hself, hexcl] at hu
      cases hu
      rw [hat, hfree, hsize]
      refine ⟨rfl, fun hf => hlive (h.free.2 i hf).1, (h.current i hlive).2.2.2, ?_⟩
      intro v hv
      by_contra hvk
      rw [hother v hvk] at hv
      exact hnx v hvk hv
    · rw [hother u huk] at hu
      obtain ⟨hr, hf, hj, huniq⟩ := h.alone u j hu
      have hji : j ≠ i := by
        rintro rfl
        exact hnx u huk hu
      rw [helse j hji, hfree, hsize]
      refine ⟨hr, hf, hj, fun v hv => ?_⟩
      by_cases hvk : v = k
      · subst hvk
        rw [hself, hexcl] at hv
        exact absurd (Option.some.inj hv).symm hji
      · rw [hother v hvk] at hv
        exact huniq v hv
  case free =>
    rw [hfree, hsize]
    refine ⟨h.free.1, fun j hj => ?_⟩
    have hji : j ≠ i := by
      rintro rfl
      exact hlive (h.free.2 j hj).1
    rw [helse j hji]
    exact h.free.2 j hj
  case past =>
    intro r b hb
    rw [hhan] at hb
    unfold Past
    rw [hgen]
    by_cases hbi : b.idx = i
    · have hp := h.past r b hb
      unfold Past at hp
      refine hp.imp_right fun ⟨hg, _⟩ => ⟨hg, .inr ⟨by rw [hbi, hat], k, a, ?_, hai.trans hbi.symm⟩⟩
      rw [hself]
      exact hclosing
    · rw [helse _ hbi]
      refine (h.past r b hb).imp_right fun ⟨hg, hc⟩ =>
        ⟨hg, hc.imp_right fun ⟨he, u, c, hc, hci⟩ => ⟨he, u, c, ?_, hci⟩⟩
      have huk : u ≠ k := by
        rintro rfl
        rw [Pc.closing_excl hc] at hexcl0
        cases hexcl0
      rw [hother u huk]
      exact hc
  case closing =>
    intro u b hb
    rw [hgen]
    by_cases huk : u = k
    · subst huk
      rw [hself, hclosing] at hb
      cases hb
      rw [hai]
      exact hag
    · exact h.closing u b (by rw [← hother u huk]; exact hb)
  case filling =>
    intro u b hb
    rw [hgen]
    by_cases huk : u = k
    · subst huk
      rw [hself, hfill] at hb
      cases hb
    · exact h.filling u b (by rw [← hother u huk]; exact hb)
  case stored =>
    intro r b hb
    rw [hpt, hptr]
    by_cases hr : Token.owner r = k
    · rw [hr, hself] at hb
      rw [hb] at hfill
      cases hfill
    · exact h.stored r b (by rw [← hother _ hr]; exact hb)
  case aim =>
    intro u r b hb
    rw [hhan]
    by_cases huk : u = k
    · subst huk
      exact h.aim u r b (haim ▸ hself ▸ hb)
    · exact h.aim u r b (by rw [← hother u huk]; exact hb)
  case held =>
    intro c r b q hq
    rw [hptr]
    by_cases hc : Token.pin c = k
    · rw [hc, hself] at hq
      exact absurd hq (hheld r b q)
    · exact h.held c r b q (by rw [← hother _ hc]; exact hq)
  case reclaimed =>
    intro r hr
    rw [hhan]
    rw [hrec] at hr
    by_cases hreg : r = (s.slots i).reg
    · rw [hreg, (h.current i hlive).1]
      rintro ⟨⟩
    · exact h.reclaimed r (by simpa [hreg] using hr)

/-! ## Registration and the free list -/

/-- `rl_handle_register` publishes its slot. -/
theorem Inv.publish (h : Inv s)
    (hk : s.pc (.owner r) = .stored a)
    (hpc : t.pc = fun u => if u = .owner r then .holds r a none else s.pc u)
    (hslots : t.slots = fun j => if j = a.idx then
      { s.slots a.idx with gen := a.gen, rc := 1, reg := r, refs := [.owner r] } else s.slots j)
    (hfree : t.free = s.free) (hsize : t.size = s.size) (hptr : t.ptrOf = s.ptrOf)
    (hrec : t.reclaimed = s.reclaimed) : Inv t := by
  have hself : t.pc (.owner r) = .holds r a none := by simp [hpc]
  have hother : ∀ u, u ≠ .owner r → t.pc u = s.pc u := fun u hu => by simp [hpc, hu]
  have hat : t.slots a.idx = { s.slots a.idx with
      gen := a.gen, rc := 1, reg := r, refs := [.owner r] } := by simp [hslots]
  have helse : ∀ j, j ≠ a.idx → t.slots j = s.slots j := fun j hj => by simp [hslots, hj]
  have hx : (s.pc (.owner r)).excl = some a.idx := by rw [hk]; rfl
  have hnone : (s.pc (.owner r)).handle = none := by rw [hk]; rfl
  obtain ⟨hempty, hnf, hlt, hone⟩ := h.alone _ _ hx
  have hfresh : ∀ q b, (s.pc (.owner q)).handle = some b → Token.owner q ≠ .owner r := by
    rintro q b hb hq
    cases hq
    rw [hnone] at hb
    cases hb
  have hhan : ∀ q b, (s.pc (.owner q)).handle = some b → (t.pc (.owner q)).handle = some b := by
    intro q b hb
    rw [hother _ (hfresh q b hb)]
    exact hb
  have hg : a.gen = (s.slots a.idx).gen := h.filling _ a (by rw [hk]; rfl)
  constructor
  case count =>
    intro j
    by_cases hj : j = a.idx
    · rw [hj, hat]
      exact ⟨(Nat.mod_eq_of_lt one_lt_span).symm, Nat.le_of_lt one_lt_span⟩
    · rw [helse j hj]
      exact h.count j
  case nodup =>
    intro j
    by_cases hj : j = a.idx
    · rw [hj, hat]
      exact List.nodup_singleton _
    · rw [helse j hj]
      exact h.nodup j
  case current =>
    intro j hne
    rw [hptr, hrec, hsize]
    by_cases hj : j = a.idx
    · subst hj
      rw [hat]
      refine ⟨by rw [hself]; rfl, h.stored r a hk, ?_, hlt⟩
      by_contra hr
      exact h.reclaimed r (by simpa using hr) hnone
    · rw [helse j hj] at hne ⊢
      obtain ⟨hh, hrest⟩ := h.current j hne
      exact ⟨hhan _ _ hh, hrest⟩
  case holder =>
    intro u q b hu
    by_cases huk : u = .owner r
    · rw [huk, hself] at hu
      cases hu
      rw [hat]
      exact ⟨by rw [huk]; exact List.mem_singleton_self _, rfl, rfl⟩
    · rw [hother u huk] at hu
      obtain ⟨hmem, hreg, hgen⟩ := h.holder u q b hu
      have hb : b.idx ≠ a.idx := by
        intro hb
        rw [hb, hempty] at hmem
        cases hmem
      rw [helse _ hb]
      exact ⟨hmem, hreg, hgen⟩
  case spent =>
    intro j u hu
    by_cases hj : j = a.idx
    · rw [hj, hat] at hu
      obtain rfl := List.mem_singleton.mp hu
      rw [hself]
      exact .inl ⟨r, a, rfl, hj.symm⟩
    · rw [helse j hj] at hu ⊢
      by_cases huk : u = .owner r
      · subst huk
        refine (h.spent j _ hu).imp_left fun ⟨q, b, hb, _⟩ => ?_
        rw [hk] at hb
        cases hb
      · rw [hother u huk]
        exact h.spent j u hu
  case alone =>
    intro u j hu
    have huk : u ≠ .owner r := by
      rintro rfl
      rw [hself] at hu
      cases hu
    rw [hother u huk] at hu
    obtain ⟨hr, hf, hj, huniq⟩ := h.alone u j hu
    have hji : j ≠ a.idx := by
      rintro rfl
      exact huk (hone u hu)
    rw [helse j hji, hfree, hsize]
    refine ⟨hr, hf, hj, fun v hv => ?_⟩
    by_cases hvk : v = .owner r
    · rw [hvk, hself] at hv
      cases hv
    · rw [hother v hvk] at hv
      exact huniq v hv
  case free =>
    rw [hfree, hsize]
    refine ⟨h.free.1, fun j hj => ?_⟩
    have hji : j ≠ a.idx := by
      rintro rfl
      exact hnf hj
    rw [helse j hji]
    exact h.free.2 j hj
  case past =>
    intro q b hb
    unfold Past
    by_cases hq : Token.owner q = .owner r
    · cases hq
      rw [hself] at hb
      cases hb
      rw [hat]
      exact .inr ⟨rfl, .inl ⟨by rintro ⟨⟩, rfl⟩⟩
    · rw [hother _ hq] at hb
      have hp := h.past q b hb
      unfold Past at hp
      by_cases hbi : b.idx = a.idx
      · rw [hbi] at hp ⊢
        rw [hat]
        left
        rcases hp with hlt' | ⟨-, ⟨hne, -⟩ | ⟨-, u, c, hc, hci⟩⟩
        · exact hg ▸ hlt'
        · exact absurd hempty hne
        · -- the only call at the slot is this registration
          have huk := hone u (hci ▸ Pc.closing_excl hc)
          rw [huk, hk] at hc
          cases hc
      · rw [helse _ hbi]
        refine hp.imp_right fun ⟨he, hc⟩ =>
          ⟨he, hc.imp_right fun ⟨hn, u, c, hc, hci⟩ => ⟨hn, u, c, ?_, hci⟩⟩
        have huk : u ≠ .owner r := by
          rintro rfl
          rw [hk] at hc
          cases hc
        rw [hother u huk]
        exact hc
  case closing =>
    intro u b hb
    have huk : u ≠ .owner r := by
      rintro rfl
      rw [hself] at hb
      cases hb
    rw [hother u huk] at hb
    have hbi : b.idx ≠ a.idx := fun hbi => huk (hone u (hbi ▸ Pc.closing_excl hb))
    rw [helse _ hbi]
    exact h.closing u b hb
  case filling =>
    intro u b hb
    have huk : u ≠ .owner r := by
      rintro rfl
      rw [hself] at hb
      cases hb
    rw [hother u huk] at hb
    have hbi : b.idx ≠ a.idx := fun hbi => huk (hone u (hbi ▸ Pc.filling_excl hb))
    rw [helse _ hbi]
    exact h.filling u b hb
  case stored =>
    intro q b hb
    rw [hptr]
    have huk : Token.owner q ≠ .owner r := by
      intro hq
      rw [hq, hself] at hb
      cases hb
    rw [hother _ huk] at hb
    have hbi : b.idx ≠ a.idx := fun hbi => huk (hone _ (by rw [hb, ← hbi]; rfl))
    rw [helse _ hbi]
    exact h.stored q b hb
  case aim =>
    intro u q b hb
    by_cases huk : u = .owner r
    · rw [huk, hself] at hb
      cases hb
      rw [hself]
      rfl
    · rw [hother u huk] at hb
      exact hhan q b (h.aim u q b hb)
  case held =>
    intro c q b p hp
    rw [hother (.pin c) (by rintro ⟨⟩)] at hp
    rw [hptr]
    exact h.held c q b p hp
  case reclaimed =>
    intro q hq
    rw [hrec] at hq
    obtain ⟨b, hb⟩ := Option.ne_none_iff_exists'.mp (h.reclaimed q hq)
    rw [hhan q b hb]
    rintro ⟨⟩

/-- The end of a reclaim: the slot is back on the free list. -/
theorem Inv.push (h : Inv s)
    (hk : (s.pc k).excl = some i) (hk' : (s.pc k).closing = none)
    (hpc : t.pc = fun u => if u = k then p else s.pc u) (hslots : t.slots = s.slots)
    (hfree : t.free = i :: s.free) (hsize : t.size = s.size) (hptr : t.ptrOf = s.ptrOf)
    (hrec : t.reclaimed = s.reclaimed) (hexcl : p.excl = none) (href : p.ref = none)
    (hhandle : ∀ r, k = .owner r → p.handle = (s.pc k).handle)
    (haim : p.aim = (s.pc k).aim) (hheld : ∀ r a q, p ≠ .holds r a q) : Inv t := by
  have hself : t.pc k = p := by simp [hpc]
  have hother : ∀ u, u ≠ k → t.pc u = s.pc u := fun u hu => by simp [hpc, hu]
  obtain ⟨hempty, hnf, hlt, hone⟩ := h.alone k i hk
  have hnoref : ∀ x, (s.pc k).ref ≠ some x := by
    intro x hx
    rw [Pc.excl_of_ref hx] at hk
    cases hk
  have hhan : ∀ r, (t.pc (.owner r)).handle = (s.pc (.owner r)).handle := by
    intro r
    by_cases hr : Token.owner r = k
    · rw [hr, hself]
      exact hhandle r hr.symm
    · rw [hother _ hr]
  have hclo : ∀ u a, (t.pc u).closing = some a ↔ (s.pc u).closing = some a := by
    intro u a
    by_cases hu : u = k
    · subst hu
      rw [hself, hk']
      refine ⟨fun ha => ?_, by rintro ⟨⟩⟩
      rw [Pc.closing_excl ha] at hexcl
      cases hexcl
    · rw [hother u hu]
  constructor
  case count => rw [hslots]; exact h.count
  case nodup => rw [hslots]; exact h.nodup
  case current =>
    intro j hj
    rw [hslots] at hj ⊢
    rw [hhan, hptr, hrec, hsize]
    exact h.current j hj
  case holder =>
    intro u r a hu
    rw [hslots]
    have huk : u ≠ k := by
      rintro rfl
      rw [hself, href] at hu
      cases hu
    exact h.holder u r a (by rw [← hother u huk]; exact hu)
  case spent =>
    intro j u hu
    rw [hslots] at hu ⊢
    by_cases huk : u = k
    · subst huk
      exact (h.spent j u hu).imp_left fun ⟨r, a, ha, _⟩ => absurd ha (hnoref _)
    · rw [hother u huk]
      exact h.spent j u hu
  case alone =>
    intro u j hu
    have huk : u ≠ k := by
      rintro rfl
      rw [hself, hexcl] at hu
      cases hu
    rw [hother u huk] at hu
    obtain ⟨hr, hf, hj, huniq⟩ := h.alone u j hu
    rw [hslots, hfree, hsize]
    refine ⟨hr, ?_, hj, fun v hv => ?_⟩
    · rintro (_ | ⟨_, hf'⟩)
      · exact huk (hone u hu)
      · exact hf hf'
    · by_cases hvk : v = k
      · rw [hvk, hself, hexcl] at hv
        cases hv
      · rw [hother v hvk] at hv
        exact huniq v hv
  case free =>
    rw [hslots, hfree, hsize]
    refine ⟨List.nodup_cons.mpr ⟨hnf, h.free.1⟩, ?_⟩
    rintro j (_ | ⟨_, hj⟩)
    · exact ⟨hempty, hlt⟩
    · exact h.free.2 j hj
  case past =>
    intro r a ha
    rw [hhan] at ha
    unfold Past
    rw [hslots]
    refine (h.past r a ha).imp_right fun ⟨hg, hc⟩ => ⟨hg, hc.imp_right fun ⟨he, u, b, hb, hi⟩ => ?_⟩
    exact ⟨he, u, b, (hclo u b).mpr hb, hi⟩
  case closing =>
    intro u a ha
    rw [hslots]
    exact h.closing u a ((hclo u a).mp ha)
  case filling =>
    intro u a ha
    rw [hslots]
    by_cases huk : u = k
    · subst huk
      rw [hself] at ha
      rw [Pc.filling_excl ha] at hexcl
      cases hexcl
    · exact h.filling u a (by rw [← hother u huk]; exact ha)
  case stored =>
    intro r a ha
    rw [hslots, hptr]
    by_cases hr : Token.owner r = k
    · rw [hr, hself] at ha
      rw [ha] at hexcl
      cases hexcl
    · exact h.stored r a (by rw [← hother _ hr]; exact ha)
  case aim =>
    intro u r a ha
    rw [hhan]
    by_cases huk : u = k
    · subst huk
      exact h.aim u r a (haim ▸ hself ▸ ha)
    · exact h.aim u r a (by rw [← hother u huk]; exact ha)
  case held =>
    intro c r a q hq
    rw [hptr]
    by_cases hc : Token.pin c = k
    · rw [hc, hself] at hq
      exact absurd hq (hheld r a q)
    · exact h.held c r a q (by rw [← hother _ hc]; exact hq)
  case reclaimed =>
    intro r hr
    rw [hhan]
    exact h.reclaimed r (hrec ▸ hr)

/-- A registration takes the head of the free list. -/
theorem Inv.pop (h : Inv s) {ptr : ℕ} {rest : List ℕ}
    (hk : s.pc (.owner r) = .fresh) (hhead : s.free = i :: rest)
    (hpc : t.pc = fun u => if u = .owner r then .popped i else s.pc u)
    (hslots : t.slots = s.slots) (hfree : t.free = rest) (hsize : t.size = s.size)
    (hptr : t.ptrOf = fun q => if q = r then ptr else s.ptrOf q)
    (hrec : t.reclaimed = s.reclaimed) : Inv t := by
  have hself : t.pc (.owner r) = .popped i := by simp [hpc]
  have hother : ∀ u, u ≠ .owner r → t.pc u = s.pc u := fun u hu => by simp [hpc, hu]
  have hhan : ∀ q, (t.pc (.owner q)).handle = (s.pc (.owner q)).handle := by
    intro q
    by_cases hq : Token.owner q = .owner r
    · rw [hq, hself, hk]
      rfl
    · rw [hother _ hq]
  -- the pointer of a registration that has a handle is not the one being set
  have hsame : ∀ q b, (s.pc (.owner q)).handle = some b → t.ptrOf q = s.ptrOf q := by
    intro q b hb
    have hq : q ≠ r := by
      rintro rfl
      rw [hk] at hb
      cases hb
    simp [hptr, hq]
  have hclo : ∀ u, (t.pc u).closing = (s.pc u).closing := by
    intro u
    by_cases hu : u = .owner r
    · rw [hu, hself, hk]
      rfl
    · rw [hother u hu]
  obtain ⟨hnd, hfr⟩ := h.free
  rw [hhead] at hnd hfr
  obtain ⟨hni, hnd'⟩ := List.nodup_cons.mp hnd
  obtain ⟨hempty, hlt⟩ := hfr i List.mem_cons_self
  constructor
  case count => rw [hslots]; exact h.count
  case nodup => rw [hslots]; exact h.nodup
  case current =>
    intro j hj
    rw [hslots] at hj ⊢
    obtain ⟨hh, hp, hrest⟩ := h.current j hj
    rw [hhan, hrec, hsize, hsame _ _ hh]
    exact ⟨hh, hp, hrest⟩
  case holder =>
    intro u q a hu
    rw [hslots]
    have huk : u ≠ .owner r := by
      rintro rfl
      rw [hself] at hu
      cases hu
    exact h.holder u q a (by rw [← hother u huk]; exact hu)
  case spent =>
    intro j u hu
    rw [hslots] at hu ⊢
    by_cases huk : u = .owner r
    · subst huk
      refine (h.spent j _ hu).imp_left fun ⟨q, a, ha, _⟩ => ?_
      rw [hk] at ha
      cases ha
    · rw [hother u huk]
      exact h.spent j u hu
  case alone =>
    intro u j hu
    rw [hslots, hfree, hsize]
    by_cases huk : u = .owner r
    · rw [huk, hself] at hu
      cases hu
      refine ⟨hempty, hni, hlt, fun v hv => ?_⟩
      by_contra hvk
      rw [huk] at hvk
      rw [hother v hvk] at hv
      exact h.not_excl (hhead ▸ List.mem_cons_self) v hv
    · rw [hother u huk] at hu
      obtain ⟨hr, hf, hj, huniq⟩ := h.alone u j hu
      rw [hhead] at hf
      refine ⟨hr, fun hm => hf (List.mem_cons_of_mem _ hm), hj, fun v hv => ?_⟩
      by_cases hvk : v = .owner r
      · rw [hvk, hself] at hv
        cases hv
        exact absurd List.mem_cons_self hf
      · rw [hother v hvk] at hv
        exact huniq v hv
  case free =>
    rw [hslots, hfree, hsize]
    exact ⟨hnd', fun j hj => hfr j (List.mem_cons_of_mem _ hj)⟩
  case past =>
    intro q a ha
    rw [hhan] at ha
    unfold Past
    rw [hslots]
    refine (h.past q a ha).imp_right fun ⟨hg, hc⟩ => ⟨hg, hc.imp_right fun ⟨he, u, b, hb, hi⟩ => ?_⟩
    exact ⟨he, u, b, by rw [hclo]; exact hb, hi⟩
  case closing =>
    intro u a ha
    rw [hslots]
    exact h.closing u a (by rw [← hclo]; exact ha)
  case filling =>
    intro u a ha
    rw [hslots]
    have huk : u ≠ .owner r := by
      rintro rfl
      rw [hself] at ha
      cases ha
    exact h.filling u a (by rw [← hother u huk]; exact ha)
  case stored =>
    intro q a ha
    rw [hslots]
    have huk : Token.owner q ≠ .owner r := by
      intro hq
      rw [hq, hself] at ha
      cases ha
    have hq : q ≠ r := fun hq => huk (hq ▸ rfl)
    rw [hother _ huk] at ha
    simpa [hptr, hq] using h.stored q a ha
  case aim =>
    intro u q a ha
    rw [hhan]
    have huk : u ≠ .owner r := by
      rintro rfl
      rw [hself] at ha
      cases ha
    exact h.aim u q a (by rw [← hother u huk]; exact ha)
  case held =>
    intro c q a p hp
    rw [hother (.pin c) (by rintro ⟨⟩)] at hp
    rw [hsame q a (h.aim (.pin c) q a (by rw [hp]; rfl))]
    exact h.held c q a p hp
  case reclaimed =>
    intro q hq
    rw [hhan]
    exact h.reclaimed q (hrec ▸ hq)

theorem mem_segment {seg : ℕ} (hi : i ∈ segment segBits seg) :
    seg * 2 ^ segBits ≤ i ∧ i < (seg + 1) * 2 ^ segBits := by
  obtain ⟨hmem, -⟩ := List.mem_filter.mp hi
  obtain ⟨j, hj, rfl⟩ := List.mem_map.mp (List.mem_reverse.mp hmem)
  have hlt := List.mem_range.mp hj
  rw [Nat.succ_mul]
  omega

theorem segment_nodup (segBits seg : ℕ) : (segment segBits seg).Nodup := by
  apply List.Nodup.filter
  apply List.nodup_reverse.mpr
  apply List.Nodup.map _ List.nodup_range
  intro a b hab
  exact Nat.add_left_cancel hab

/-- A new segment is above every slot in use. -/
theorem Inv.grow (h : Inv s) : Inv s.grow := by
  have hsize : s.size ≤ s.grow.size := Nat.mul_le_mul_right _ (Nat.le_succ _)
  have hnew : ∀ i ∈ segment s.segBits s.segs, s.size ≤ i ∧ i < s.grow.size :=
    fun i hi => mem_segment hi
  constructor
  case count => exact h.count
  case nodup => exact h.nodup
  case current =>
    intro i hi
    obtain ⟨hh, hp, hr, hlt⟩ := h.current i hi
    exact ⟨hh, hp, hr, Nat.lt_of_lt_of_le hlt hsize⟩
  case holder => exact h.holder
  case spent => exact h.spent
  case alone =>
    intro u i hu
    obtain ⟨hr, hf, hlt, hone⟩ := h.alone u i hu
    refine ⟨hr, fun hm => ?_, Nat.lt_of_lt_of_le hlt hsize, hone⟩
    rcases List.mem_append.mp hm with hm | hm
    · exact absurd hlt (Nat.not_lt.mpr (hnew i hm).1)
    · exact hf hm
  case free =>
    constructor
    · apply List.nodup_append.mpr
      refine ⟨segment_nodup _ _, h.free.1, fun i hi j hj hij => ?_⟩
      have := (hnew i hi).1
      have := (h.free.2 j hj).2
      omega
    · intro i hi
      rcases List.mem_append.mp hi with hm | hm
      · refine ⟨?_, (hnew i hm).2⟩
        by_contra hne
        exact absurd (h.current i hne).2.2.2 (Nat.not_lt.mpr (hnew i hm).1)
      · exact ⟨(h.free.2 i hm).1, Nat.lt_of_lt_of_le (h.free.2 i hm).2 hsize⟩
  case past => exact h.past
  case closing => exact h.closing
  case filling => exact h.filling
  case stored => exact h.stored
  case aim => exact h.aim
  case held => exact h.held
  case reclaimed => exact h.reclaimed

/-! ## Every step -/

theorem init_inv (segBits maxSegs : ℕ) : Inv (init segBits maxSegs) := by
  constructor
  case count => exact fun i => ⟨rfl, Nat.zero_le _⟩
  case nodup => exact fun i => List.nodup_nil
  case current => exact fun i hi => absurd rfl hi
  case holder => exact fun t r h ht => by cases ht
  case spent => exact fun i t ht => by cases ht
  case alone => exact fun t i ht => by cases ht
  case free => exact ⟨List.nodup_nil, fun i hi => by cases hi⟩
  case past => exact fun r h hr => by cases hr
  case closing => exact fun t h ht => by cases ht
  case filling => exact fun t h ht => by cases ht
  case stored => exact fun r h hr => by cases hr
  case aim => exact fun t r h ht => by cases ht
  case held => exact fun c r h p hp => by cases hp
  case reclaimed => exact fun r hr => by cases hr

/-- A call without a reference is not among those of a slot whose count is right. -/
theorem Inv.not_mem (h : Inv s) (hk : (s.pc k).ref = none)
    (hi : k ∈ (s.slots i).refs) : (s.slots i).refs.length = span := by
  refine (h.spent i k hi).resolve_left fun ⟨r, a, ha, _⟩ => ?_
  rw [hk] at ha
  cases ha

/-- A call's reference is in one slot, overflowed ones apart. -/
theorem Inv.mem_idx (h : Inv s)
    (hk : (s.pc k).ref = some (r, a)) (hi : k ∈ (s.slots i).refs) :
    i = a.idx ∨ (s.slots i).refs.length = span := by
  refine (h.spent i k hi).imp_left fun ⟨q, b, hb, hbi⟩ => ?_
  rw [hk] at hb
  cases hb
  exact hbi.symm

/-- A count that is not 0 has not overflowed. -/
theorem Inv.rc_ne_zero (h : Inv s) (hrc : (s.slots i).rc ≠ 0) :
    (s.slots i).refs ≠ [] ∧ (s.slots i).refs.length ≠ span ∧
      (s.slots i).rc = (s.slots i).refs.length := by
  have hne : (s.slots i).refs.length ≠ span := fun he => hrc (h.rc_zero.mpr (.inr he))
  refine ⟨fun he => hrc (h.rc_zero.mpr (.inl he)), hne, ?_⟩
  obtain ⟨hmod, hle⟩ := h.count i
  rw [hmod]
  exact Nat.mod_eq_of_lt (Nat.lt_of_le_of_ne hle hne)

/-- A pin takes its reference. -/
theorem Inv.take (h : Inv s)
    (hk : s.pc k = .pinCas r a n) (hg : (s.slots a.idx).gen = a.gen)
    (hrc : (s.slots a.idx).rc = n + 1) :
    Inv ((s.setSlot a.idx { s.slots a.idx with
      rc := (n + 2) % span, refs := k :: (s.slots a.idx).refs }).goto k (.pinRead r a)) := by
  have hnz : (s.slots a.idx).rc ≠ 0 := by omega
  obtain ⟨hlive, hfull, hlen⟩ := h.rc_ne_zero hnz
  have haim : (s.pc k).aim = some (r, a) := by rw [hk]; rfl
  have hnoref : (s.pc k).ref = none := by rw [hk]; rfl
  obtain ⟨-, hreg⟩ := h.resolves (h.aim k r a haim) hg hnz
  have hlt : (s.slots a.idx).refs.length < span :=
    Nat.lt_of_le_of_ne (h.count a.idx).2 hfull
  refine h.recount rfl rfl rfl rfl rfl rfl hlive hfull (by rintro ⟨⟩) ?_ hlt ?_ ?_ ?_ ?_ ?_ rfl
    (by rw [hk]; rfl) ?_ (by rw [hk]; rfl) (by rintro _ _ _ ⟨⟩)
  · rw [List.length_cons, ← hlen, hrc]
  · exact List.nodup_cons.mpr ⟨fun hm => hfull (h.not_mem hnoref hm), h.nodup a.idx⟩
  · intro u hu
    exact ⟨fun hm => (List.mem_cons.mp hm).resolve_left hu, List.mem_cons_of_mem _⟩
  · exact fun _ => ⟨r, a, rfl, rfl⟩
  · rintro q b hb
    cases hb
    exact ⟨rfl, List.mem_cons_self, hreg, hg⟩
  · exact fun j hj => .inr (h.not_mem hnoref hj)
  · intro q _
    rw [hk]
    rfl

/-- A `rl_handle_deref` drops a reference that is not the last. -/
theorem Inv.drop (h : Inv s)
    (hk : s.pc k = .deref r a wait (.cas n)) (hrc : (s.slots a.idx).rc = n + 1)
    (hmore : n ≠ 0) :
    Inv ((s.setSlot a.idx { s.slots a.idx with
      rc := n, refs := (s.slots a.idx).refs.erase k }).goto k (Pc.back r a wait)) := by
  have hnz : (s.slots a.idx).rc ≠ 0 := by omega
  obtain ⟨hlive, hfull, hlen⟩ := h.rc_ne_zero hnz
  have href : (s.pc k).ref = some (r, a) := by rw [hk]; rfl
  obtain ⟨hmem, -, -⟩ := h.holder k r a href
  have hlt : (s.slots a.idx).refs.length < span :=
    Nat.lt_of_le_of_ne (h.count a.idx).2 hfull
  have herase : ((s.slots a.idx).refs.erase k).length = n := by
    rw [List.length_erase_of_mem hmem, ← hlen, hrc]
    rfl
  refine h.recount rfl rfl rfl rfl rfl rfl hlive hfull ?_ ?_ ?_ ?_ ?_ ?_ ?_ ?_
    (Pc.back_excl r a wait) (by rw [hk]; rfl) ?_ ?_ (Pc.back_ne_holds r a wait)
  · intro he
    rw [he] at herase
    exact hmore herase.symm
  · rw [herase]
    exact (Nat.mod_eq_of_lt (by omega)).symm
  · omega
  · exact (h.nodup a.idx).erase k
  · exact fun u hu => List.mem_erase_of_ne hu
  · exact fun hm => absurd hm (h.nodup a.idx).not_mem_erase
  · intro q b hb
    rw [Pc.back_ref] at hb
    cases hb
  · exact fun j hj => h.mem_idx href hj
  · intro q _
    rw [hk, Pc.back_handle]
    rfl
  · rw [hk, Pc.back_aim]
    rfl

/-- A `rl_handle_deref` drops the last reference. -/
theorem Inv.dropLast (h : Inv s)
    (hk : s.pc k = .deref r a wait (.cas 0)) (hrc : (s.slots a.idx).rc = 1)
    (hpc : t.pc = fun u => if u = k then .deref r a wait .clear else s.pc u)
    (hslots : t.slots = fun j => if j = a.idx then { s.slots a.idx with
      rc := 0, refs := (s.slots a.idx).refs.erase k } else s.slots j)
    (hfree : t.free = s.free) (hsize : t.size = s.size) (hptr : t.ptrOf = s.ptrOf)
    (hrec : t.reclaimed = fun q => if q = (s.slots a.idx).reg then true else s.reclaimed q) :
    Inv t := by
  obtain ⟨-, -, hlen⟩ := h.rc_ne_zero (i := a.idx) (by omega)
  have href : (s.pc k).ref = some (r, a) := by rw [hk]; rfl
  obtain ⟨hmem, -, hg⟩ := h.holder k r a href
  have hone : (s.slots a.idx).refs = [k] := by
    obtain ⟨b, hb⟩ := List.length_eq_one_iff.mp (show (s.slots a.idx).refs.length = 1 by omega)
    rw [hb] at hmem ⊢
    rw [List.mem_singleton.mp hmem]
  rw [hone, List.erase_cons_head] at hslots
  exact h.last hpc hslots hfree hsize hptr hrec hone rfl hg.symm rfl rfl rfl rfl
    (by rw [hk]; rfl) (fun j hj => h.mem_idx href hj) (fun q _ => by rw [hk]; rfl)
    (by rw [hk]; rfl) (by rintro _ _ _ ⟨⟩)

/-- A `rl_handle_deref` gives up only in a slot whose count has overflowed. -/
theorem Inv.derefCheck (h : Inv s)
    (hk : s.pc k = .deref r a wait d) (hd : d = .load ∨ ∃ n, d = .cas n) :
    Inv (derefCheck s k r a wait) := by
  have href : (s.pc k).ref = some (r, a) := by
    rw [hk]
    rcases hd with rfl | ⟨n, rfl⟩
    all_goals rfl
  have hexcl : (s.pc k).excl = none := Pc.excl_of_ref href
  have hclosing : (s.pc k).closing = none := by
    rw [hk]
    rcases hd with rfl | ⟨n, rfl⟩
    all_goals rfl
  obtain ⟨hmem, -, hg⟩ := h.holder k r a href
  unfold HandleTable.derefCheck
  dsimp only
  split
  case isTrue hfail =>
    have hrc : (s.slots a.idx).rc = 0 := hfail.resolve_left (fun hne => hne hg)
    have hfull : (s.slots a.idx).refs.length = span := by
      refine (h.rc_zero.mp hrc).resolve_left fun he => ?_
      rw [he] at hmem
      cases hmem
    refine h.move rfl rfl rfl rfl rfl rfl (.inr ⟨Pc.back_ref r a wait, ?_⟩)
      ((Pc.back_excl r a wait).trans hexcl.symm) ?_ ?_ ?_ ?_ ?_ ?_
    · intro i hi
      rcases h.mem_idx href hi with rfl | he
      · exact hfull
      · exact he
    · rw [hclosing]
      cases wait <;> rfl
    · intro b hb
      rw [show (Pc.back r a wait).filling = none by cases wait <;> rfl] at hb
      cases hb
    · intro b
      cases wait <;> rintro ⟨⟩
    · intro q _
      rw [hk, Pc.back_handle]
      rfl
    · intro q b hb
      rw [Pc.back_aim] at hb
      cases hb
      exact h.aim k r a (by rw [hk]; rfl)
    · exact fun c q b p _ hp => absurd hp (Pc.back_ne_holds r a wait q b p)
  case isFalse =>
    exact h.same rfl rfl rfl rfl rfl rfl href.symm hexcl.symm hclosing.symm rfl
      (fun q _ => by rw [hk]; rfl) (by rw [hk]; rfl) (by rintro _ _ _ ⟨⟩)

theorem Inv.pinCheck (h : Inv s) {c : ℕ}
    (hk : s.pc (.pin c) = .pinLoad r a ∨ ∃ n, s.pc (.pin c) = .pinCas r a n) :
    Inv (pinCheck s (.pin c) r a) := by
  have hp : (s.pc (.pin c)).ref = none ∧ (s.pc (.pin c)).excl = none ∧
      (s.pc (.pin c)).closing = none ∧ (s.pc (.pin c)).aim = some (r, a) := by
    rcases hk with hk | ⟨n, hk⟩
    all_goals
      rw [hk]
      exact ⟨rfl, rfl, rfl, rfl⟩
  obtain ⟨href, hexcl, hclosing, haim⟩ := hp
  unfold HandleTable.pinCheck
  dsimp only
  split
  all_goals
    exact h.same rfl rfl rfl rfl rfl rfl href.symm hexcl.symm hclosing.symm rfl (by rintro _ ⟨⟩)
      haim.symm (by rintro _ _ _ ⟨⟩)

/-- **Step lemma** for `rl_handle_deref`. -/
theorem derefStep_inv (h : Inv s)
    (hk : s.pc k = .deref r a wait d) (hw : wraps s (.step k) = false) :
    Inv (derefStep s k r a wait d) := by
  unfold derefStep
  dsimp only
  cases d with
  | load =>
    have hsz : a.idx < s.size := by
      have hmem := (h.holder k r a (by rw [hk]; rfl)).1
      exact (h.current a.idx (List.ne_nil_of_mem hmem)).2.2.2
    rw [if_pos hsz]
    exact h.derefCheck hk (.inl rfl)
  | cas n =>
    dsimp only
    split
    case isTrue hcas =>
      split
      case isTrue hn =>
        subst hn
        exact h.dropLast hk hcas.2 rfl rfl rfl rfl rfl rfl
      case isFalse hn => exact h.drop hk hcas.2 hn
    case isFalse => exact h.derefCheck hk (.inr ⟨n, rfl⟩)
  | clear =>
    have hx : (s.pc k).excl = some a.idx := by rw [hk]; rfl
    obtain ⟨hempty, -, -, -⟩ := h.alone k a.idx hx
    have hg := h.closing k a (by rw [hk]; rfl)
    refine h.touch hx rfl rfl rfl rfl rfl rfl hempty (h.rc_zero.mpr (.inl hempty)) rfl rfl
      ?_ (by rintro _ ⟨⟩) (by rintro _ _ _ ⟨⟩) (.inr ⟨rfl, fun _ => (by rintro ⟨⟩)⟩) ?_ (by rw [hk]; rfl) (by rintro _ _ _ ⟨⟩)
    · intro b hb
      cases hb
      exact hg
    · intro q _
      rw [hk]
      rfl
  | bump p f =>
    have hx : (s.pc k).excl = some a.idx := by rw [hk]; rfl
    obtain ⟨hempty, -, -, -⟩ := h.alone k a.idx hx
    have hg := h.closing k a (by rw [hk]; rfl)
    have hlt : a.gen + 1 < span := by
      simp only [wraps, hk] at hw
      exact Nat.not_le.mp (of_decide_eq_false hw)
    refine h.touch hx rfl rfl rfl rfl rfl rfl hempty rfl rfl rfl (by rintro _ ⟨⟩) (by rintro _ ⟨⟩) (by rintro _ _ _ ⟨⟩)
      (.inl ?_) ?_ (by rw [hk]; rfl) (by rintro _ _ _ ⟨⟩)
    · dsimp only
      rw [Nat.mod_eq_of_lt hlt, ← hg]
      exact Nat.lt_succ_self _
    · intro q _
      rw [hk]
      rfl
  | free p f =>
    exact h.same rfl rfl rfl rfl rfl rfl (by rw [hk]; rfl) (by rw [hk]; rfl)
      (by rw [hk]; rfl) rfl (fun q _ => by rw [hk]; rfl) (by rw [hk]; rfl) (by rintro _ _ _ ⟨⟩)
  | push =>
    refine h.push (by rw [hk]; rfl) (by rw [hk]; rfl) rfl rfl rfl rfl rfl rfl
      (Pc.back_excl r a wait) (Pc.back_ref r a wait) ?_ ?_ (Pc.back_ne_holds r a wait)
    · intro q _
      rw [hk, Pc.back_handle]
      rfl
    · rw [hk, Pc.back_aim]
      rfl

/-- **Step lemma.** A step that wraps no generation keeps the invariant. -/
theorem tokenStep_inv (h : Inv s) (hw : wraps s (.step k) = false)
    (hs : tokenStep s k = some t) : Inv t := by
  unfold tokenStep at hs
  split at hs
  case h_1 i hpc =>
    cases hs
    refine h.move rfl rfl rfl rfl rfl rfl (.inl (by rw [hpc]; rfl)) (by rw [hpc]; rfl)
      (by rw [hpc]; rfl) ?_ (by rintro _ ⟨⟩) (fun q _ => by rw [hpc]; rfl) (by rintro _ _ ⟨⟩) (by intros; contradiction)
    intro b hb
    cases hb
    rfl
  case h_2 a r hpc =>
    cases hs
    have hx : (s.pc (.owner r)).excl = some a.idx := by rw [hpc]; rfl
    obtain ⟨hempty, -, -, -⟩ := h.alone _ _ hx
    have hg := h.filling (.owner r) a (by rw [hpc]; rfl)
    refine h.touch hx rfl rfl rfl rfl rfl rfl hempty (h.rc_zero.mpr (.inl hempty)) rfl rfl
      nofun ?_ ?_ (.inr ⟨rfl, fun hc => absurd (by rw [hpc]; rfl) hc⟩)
      (fun q _ => by rw [hpc]; rfl) (by rw [hpc]; rfl) nofun
    · intro b hb
      cases hb
      exact hg
    · intro q b hq _
      cases hq
      rfl
  case h_3 a r hpc =>
    cases hs
    exact h.publish hpc rfl rfl rfl rfl rfl rfl
  case h_4 r a c hpc =>
    split at hs
    case isTrue =>
      cases hs
      exact h.pinCheck (.inl hpc)
    case isFalse =>
      cases hs
      exact h.same rfl rfl rfl rfl rfl rfl (by rw [hpc]; rfl) (by rw [hpc]; rfl)
        (by rw [hpc]; rfl) rfl nofun (by rw [hpc]; rfl) nofun
  case h_5 r a n c hpc =>
    dsimp only at hs
    split at hs
    case isTrue hcas =>
      cases hs
      exact h.take hpc hcas.1 hcas.2
    case isFalse =>
      cases hs
      exact h.pinCheck (.inr ⟨n, hpc⟩)
  case h_6 r a c hpc =>
    cases hs
    obtain ⟨hmem, hreg, -⟩ := h.holder (.pin c) r a (by rw [hpc]; rfl)
    refine h.move rfl rfl rfl rfl rfl rfl (.inl (by rw [hpc]; rfl)) (by rw [hpc]; rfl)
      (by rw [hpc]; rfl) nofun nofun nofun ?_ ?_
    · intro q b hb
      cases hb
      exact h.aim (.pin c) r a (by rw [hpc]; rfl)
    · intro c' q b p _ hp
      cases hp
      rw [(h.current _ (List.ne_nil_of_mem hmem)).2.1, hreg]
  case h_7 r a wait d hpc =>
    cases hs
    exact derefStep_inv h hpc hw
  case h_8 r a hpc =>
    split at hs
    case isTrue =>
      cases hs
      exact h.same rfl rfl rfl rfl rfl rfl (by rw [hpc]; rfl) (by rw [hpc]; rfl)
        (by rw [hpc]; rfl) rfl (fun q _ => by rw [hpc]; rfl) (by rw [hpc]; rfl) nofun
    case isFalse => cases hs
  case h_9 => cases hs

theorem step_inv (h : Inv s) (hw : wraps s x = false)
    (hs : step s x = some t) : Inv t := by
  have hpop : ∀ {u : State} {r ptr : ℕ} {f : Bool}, Inv u → u.pc (.owner r) = .fresh →
      u.pop r ptr f = some t → Inv t := by
    intro u r ptr f hu hk hp
    unfold State.pop at hp
    split at hp
    case h_1 => cases hp
    case h_2 i rest hfree =>
      cases hp
      exact hu.pop hk hfree rfl rfl rfl rfl rfl rfl
  cases x with
  | register r ptr f =>
    dsimp only [step] at hs
    split at hs
    case h_1 hk =>
      split at hs
      case isTrue =>
        split at hs
        case isTrue => exact hpop h.grow hk hs
        case isFalse => cases hs
      case isFalse => exact hpop h hk hs
    case h_2 => cases hs
  | full r =>
    dsimp only [step] at hs
    split at hs
    case h_1 hk =>
      split at hs
      case isTrue =>
        cases hs
        exact h.same rfl rfl rfl rfl rfl rfl (by rw [hk]; rfl) (by rw [hk]; rfl)
          (by rw [hk]; rfl) rfl (fun q _ => by rw [hk]; rfl) (by rw [hk]; rfl) (by rintro _ _ _ ⟨⟩)
      case isFalse => cases hs
    case h_2 => cases hs
  | release r wait =>
    dsimp only [step] at hs
    split at hs
    case h_1 q a p hk =>
      cases hs
      exact h.same rfl rfl rfl rfl rfl rfl (by rw [hk]; rfl) (by rw [hk]; rfl)
        (by rw [hk]; rfl) rfl (fun q _ => by rw [hk]; rfl) (by rw [hk]; rfl) (by rintro _ _ _ ⟨⟩)
    case h_2 => cases hs
  | pin c r =>
    dsimp only [step] at hs
    split at hs
    case h_1 a hk ha =>
      cases hs
      refine h.move rfl rfl rfl rfl rfl rfl (.inl (by rw [hk]; rfl)) (by rw [hk]; rfl)
        (by rw [hk]; rfl) (by rintro _ ⟨⟩) (by rintro _ ⟨⟩) (by rintro _ ⟨⟩) ?_ (by intros; contradiction)
      intro q b hb
      cases hb
      exact ha
    case h_2 => cases hs
  | unpin c =>
    dsimp only [step] at hs
    split at hs
    case h_1 r a p hk =>
      cases hs
      exact h.same rfl rfl rfl rfl rfl rfl (by rw [hk]; rfl) (by rw [hk]; rfl)
        (by rw [hk]; rfl) rfl (by rintro _ ⟨⟩) (by rw [hk]; rfl) (by rintro _ _ _ ⟨⟩)
    case h_2 => cases hs
  | step k => exact tokenStep_inv h hw hs

theorem reachable_inv
    (hr : Reachable (unwrapped segBits maxSegs) s) : Inv s := by
  refine hr.invariant ?_ ?_
  · intro s hs
    rw [hs]
    exact init_inv segBits maxSegs
  · intro s a t _ h hs
    obtain ⟨hw, hst⟩ := System.restrict_step.mp hs
    exact step_inv h hw hst

/-! ## A registration that is over -/

/-- The owner's release has returned and no pin of `r` is outstanding. -/
def Over (s : State) (r : ℕ) : Prop :=
  (∃ h, s.pc (.owner r) = .gone r h) ∧ ∀ c h, (s.pc (.pin c)).ref ≠ some (r, h)

/-- The handle of `r` resolves to nothing. -/
def Shut (s : State) (r : ℕ) : Prop :=
  ∃ h, (s.pc (.owner r)).handle = some h ∧
    ((s.slots h.idx).gen ≠ h.gen ∨ (s.slots h.idx).rc = 0)

/-- What a step can do to the `genref` of a slot. -/
def Turned (s t : State) (i : ℕ) : Prop :=
  ((t.slots i).gen = (s.slots i).gen ∧
    ((t.slots i).rc = (s.slots i).rc ∨ (s.slots i).rc ≠ 0 ∨ (t.slots i).rc = 0 ∨
      ∃ r a, s.pc (.owner r) = .stored a ∧ a.idx = i)) ∨
  (s.slots i).gen < (t.slots i).gen

theorem Turned.refl (h : t.slots = s.slots) : Turned s t i := by
  rw [Turned, h]
  exact .inl ⟨rfl, .inl rfl⟩

theorem Turned.at {j : ℕ} {w : Slot}
    (ht : t.slots = fun k => if k = j then w else s.slots k)
    (hw : (w.gen = (s.slots j).gen ∧ (w.rc = (s.slots j).rc ∨ (s.slots j).rc ≠ 0 ∨ w.rc = 0 ∨
      ∃ r a, s.pc (.owner r) = .stored a ∧ a.idx = j)) ∨ (s.slots j).gen < w.gen) (i : ℕ) :
    Turned s t i := by
  unfold Turned
  by_cases hi : i = j
  · subst hi
    simpa [ht] using hw
  · simp [ht, hi]

theorem derefStep_turned (h : Inv s)
    (hk : s.pc k = .deref r a wait d) (hw : wraps s (.step k) = false) (i : ℕ) :
    Turned s (derefStep s k r a wait d) i := by
  have hcheck : Turned s (derefCheck s k r a wait) i := by
    apply Turned.refl
    unfold derefCheck
    dsimp only
    split <;> rfl
  unfold derefStep
  dsimp only
  cases d with
  | load =>
    dsimp only
    split
    case isTrue => exact hcheck
    case isFalse => exact .refl rfl
  | cas n =>
    dsimp only
    split
    case isTrue hcas =>
      have hnz : (s.slots a.idx).rc ≠ 0 := by omega
      split
      all_goals
        refine Turned.at rfl ?_ i
        exact .inl ⟨rfl, .inr (.inl hnz)⟩
    case isFalse => exact hcheck
  | clear =>
    refine Turned.at rfl ?_ i
    exact .inl ⟨rfl, .inl rfl⟩
  | bump p f =>
    have hg := h.closing k a (by rw [hk]; rfl)
    have hlt : a.gen + 1 < span := by
      simp only [wraps, hk] at hw
      exact Nat.not_le.mp (of_decide_eq_false hw)
    refine Turned.at rfl (.inr ?_) i
    dsimp only
    rw [Nat.mod_eq_of_lt hlt, ← hg]
    exact Nat.lt_succ_self _
  | free p f => exact .refl rfl
  | push => exact .refl rfl

theorem step_turned (h : Inv s) (hw : wraps s x = false)
    (hs : step s x = some t) (i : ℕ) : Turned s t i := by
  have hpop : ∀ {u : State} {r ptr : ℕ} {f : Bool}, u.slots = s.slots →
      u.pop r ptr f = some t → t.slots = s.slots := by
    intro u r ptr f hu hp
    unfold State.pop at hp
    split at hp
    case h_1 => cases hp
    case h_2 =>
      cases hp
      exact hu
  have hcheck : ∀ k r a, (pinCheck s k r a).slots = s.slots := by
    intro k r a
    unfold pinCheck
    dsimp only
    split <;> rfl
  cases x with
  | register r ptr f =>
    dsimp only [step] at hs
    split at hs
    case h_1 =>
      split at hs
      case isTrue =>
        split at hs
        case isTrue => exact .refl (hpop (u := s.grow) rfl hs)
        case isFalse => cases hs
      case isFalse => exact .refl (hpop (u := s) rfl hs)
    case h_2 => cases hs
  | full r =>
    dsimp only [step] at hs
    split at hs
    case h_1 =>
      split at hs
      case isTrue =>
        cases hs
        exact .refl rfl
      case isFalse => cases hs
    case h_2 => cases hs
  | release r wait =>
    dsimp only [step] at hs
    split at hs
    case h_1 =>
      cases hs
      exact .refl rfl
    case h_2 => cases hs
  | pin c r =>
    dsimp only [step] at hs
    split at hs
    case h_1 =>
      cases hs
      exact .refl rfl
    case h_2 => cases hs
  | unpin c =>
    dsimp only [step] at hs
    split at hs
    case h_1 =>
      cases hs
      exact .refl rfl
    case h_2 => cases hs
  | step k =>
    dsimp only [step] at hs
    unfold tokenStep at hs
    split at hs
    case h_1 =>
      cases hs
      exact .refl rfl
    case h_2 =>
      cases hs
      refine Turned.at rfl ?_ i
      exact .inl ⟨rfl, .inl rfl⟩
    case h_3 a r hpc =>
      cases hs
      have hg := h.filling (.owner r) a (by rw [hpc]; rfl)
      refine Turned.at rfl ?_ i
      exact .inl ⟨hg, .inr (.inr (.inr ⟨r, a, hpc, rfl⟩))⟩
    case h_4 =>
      split at hs
      case isTrue =>
        cases hs
        exact .refl (hcheck _ _ _)
      case isFalse =>
        cases hs
        exact .refl rfl
    case h_5 =>
      dsimp only at hs
      split at hs
      case isTrue hcas =>
        cases hs
        refine Turned.at rfl ?_ i
        exact .inl ⟨rfl, .inr (.inl (by omega))⟩
      case isFalse =>
        cases hs
        exact .refl (hcheck _ _ _)
    case h_6 =>
      cases hs
      exact .refl rfl
    case h_7 hpc =>
      cases hs
      exact derefStep_turned h hpc hw i
    case h_8 =>
      split at hs
      case isTrue =>
        cases hs
        exact .refl rfl
      case isFalse => cases hs
    case h_9 => cases hs

/-- What a step can do to the program points: one call moves. It keeps the
handle of an owner, and it takes a reference only by an exchange that found the
handle's generation and a count above 0. -/
structure Moved (s t : State) : Prop where
  handle : ∀ r h, (s.pc (.owner r)).handle = some h → (t.pc (.owner r)).handle = some h
  ref : ∀ c r h, (t.pc (.pin c)).ref = some (r, h) → (s.pc (.pin c)).ref = some (r, h) ∨
    (s.pc (.pin c)).aim = some (r, h) ∧ (s.slots h.idx).gen = h.gen ∧ (s.slots h.idx).rc ≠ 0
  own : ∀ q r h, (t.pc (.owner q)).aim = some (r, h) →
    (s.pc (.owner q)).aim = some (r, h) ∨ r = q

theorem Moved.goto
    (hpc : t.pc = fun u => if u = k then p else s.pc u)
    (hhandle : ∀ h, (s.pc k).handle = some h → p.handle = some h)
    (href : ∀ c r h, k = .pin c → p.ref = some (r, h) → (s.pc k).ref = some (r, h) ∨
      (s.pc k).aim = some (r, h) ∧ (s.slots h.idx).gen = h.gen ∧ (s.slots h.idx).rc ≠ 0)
    (hown : ∀ q r h, k = .owner q → p.aim = some (r, h) →
      (s.pc k).aim = some (r, h) ∨ r = q) : Moved s t := by
  have hself : t.pc k = p := by simp [hpc]
  have hother : ∀ u, u ≠ k → t.pc u = s.pc u := fun u hu => by simp [hpc, hu]
  constructor
  · intro r h hr
    by_cases hk : Token.owner r = k
    · rw [hk, hself]
      exact hhandle h (hk ▸ hr)
    · rw [hother _ hk]
      exact hr
  · intro c r h hr
    by_cases hk : Token.pin c = k
    · rw [hk, hself] at hr
      rw [hk]
      exact href c r h hk.symm hr
    · rw [hother _ hk] at hr
      exact .inl hr
  · intro q r h hr
    by_cases hk : Token.owner q = k
    · rw [hk, hself] at hr
      rw [hk]
      exact hown q r h hk.symm hr
    · rw [hother _ hk] at hr
      exact .inl hr

/-- A call that keeps what it is about and what it holds. -/
theorem Moved.keep
    (hpc : t.pc = fun u => if u = k then p else s.pc u)
    (hhandle : ∀ h, (s.pc k).handle = some h → p.handle = some h)
    (href : p.ref = none ∨ p.ref = (s.pc k).ref) (haim : p.aim = (s.pc k).aim) : Moved s t := by
  refine .goto hpc hhandle ?_ ?_
  · intro c r h _ hr
    rcases href with he | he
    · rw [he] at hr
      cases hr
    · exact .inl (he ▸ hr)
  · intro q r h _ hr
    exact .inl (haim ▸ hr)

theorem derefStep_moved (s : State)
    (hk : s.pc k = .deref r a wait d) : Moved s (derefStep s k r a wait d) := by
  have haim : (s.pc k).aim = some (r, a) := by rw [hk]; rfl
  have hhan : (s.pc k).handle = some a := by rw [hk]; rfl
  have hback : ∀ t : State, (t.pc = fun u => if u = k then Pc.back r a wait else s.pc u) →
      Moved s t := by
    intro t ht
    refine .keep ht ?_ (.inl (Pc.back_ref r a wait)) (by rw [haim, Pc.back_aim])
    intro h hh
    rw [Pc.back_handle, ← hhan, hh]
  have hnext : ∀ (t : State) e, (t.pc = fun u => if u = k then .deref r a wait e else s.pc u) →
      ((Pc.deref r a wait e).ref = none ∨ (Pc.deref r a wait e).ref = (s.pc k).ref) →
      Moved s t := by
    intro t e ht href
    refine .keep ht ?_ href haim.symm
    intro h hh
    rw [← hh, hhan]
    rfl
  have hcheck : (s.pc k).ref = some (r, a) → Moved s (derefCheck s k r a wait) := by
    intro href
    unfold derefCheck
    dsimp only
    split
    case isTrue => exact hback _ rfl
    case isFalse => exact hnext _ _ rfl (.inr href.symm)
  unfold derefStep
  dsimp only
  cases d with
  | load =>
    dsimp only
    split
    case isTrue => exact hcheck (by rw [hk]; rfl)
    case isFalse => exact hback _ rfl
  | cas n =>
    dsimp only
    split
    case isTrue =>
      split
      case isTrue => exact hnext _ _ rfl (.inl rfl)
      case isFalse => exact hback _ rfl
    case isFalse => exact hcheck (by rw [hk]; rfl)
  | clear => exact hnext _ _ rfl (.inl rfl)
  | bump p f => exact hnext _ _ rfl (.inl rfl)
  | free p f => exact hnext _ _ rfl (.inl rfl)
  | push => exact hback _ rfl

theorem tokenStep_moved (hs : tokenStep s k = some t) :
    Moved s t := by
  have hcheck : ∀ c r a, (s.pc (.pin c)).aim = some (r, a) → (s.pc (.pin c)).handle = none →
      Moved s (pinCheck s (.pin c) r a) := by
    intro c r a haim hhan
    unfold pinCheck
    dsimp only
    split
    all_goals
      refine .keep rfl ?_ (.inl rfl) haim.symm
      intro h hh
      rw [hhan] at hh
      cases hh
  unfold tokenStep at hs
  split at hs
  case h_1 hpc =>
    cases hs
    refine .goto rfl ?_ (by rintro _ _ _ _ ⟨⟩) (by rintro _ _ _ _ ⟨⟩)
    rw [hpc]
    rintro _ ⟨⟩
  case h_2 hpc =>
    cases hs
    refine .goto rfl ?_ (by rintro _ _ _ ⟨⟩) (by rintro _ _ _ _ ⟨⟩)
    rw [hpc]
    rintro _ ⟨⟩
  case h_3 a r hpc =>
    cases hs
    refine .goto rfl ?_ (by rintro _ _ _ ⟨⟩) ?_
    · rw [hpc]
      rintro _ ⟨⟩
    · intro q r' h hq hr
      cases hq
      cases hr
      exact .inr rfl
  case h_4 r a c hpc =>
    split at hs
    case isTrue =>
      cases hs
      exact hcheck c r a (by rw [hpc]; rfl) (by rw [hpc]; rfl)
    case isFalse =>
      cases hs
      refine .keep rfl ?_ (.inl rfl) (by rw [hpc]; rfl)
      rw [hpc]
      rintro _ ⟨⟩
  case h_5 r a n c hpc =>
    dsimp only at hs
    split at hs
    case isTrue hcas =>
      cases hs
      refine .goto rfl ?_ ?_ (by rintro _ _ _ ⟨⟩)
      · rw [hpc]
        rintro _ ⟨⟩
      · intro c' q b _ hb
        cases hb
        exact .inr ⟨by rw [hpc]; rfl, hcas.1, by omega⟩
    case isFalse =>
      cases hs
      exact hcheck c r a (by rw [hpc]; rfl) (by rw [hpc]; rfl)
  case h_6 r a c hpc =>
    cases hs
    refine .keep rfl ?_ (.inr (by rw [hpc]; rfl)) (by rw [hpc]; rfl)
    rw [hpc]
    rintro _ ⟨⟩
  case h_7 hpc =>
    cases hs
    exact derefStep_moved s hpc
  case h_8 r a hpc =>
    split at hs
    case isTrue =>
      cases hs
      refine .keep rfl ?_ (.inl rfl) (by rw [hpc]; rfl)
      rw [hpc]
      exact fun h hh => hh
    case isFalse => cases hs
  case h_9 => cases hs

theorem step_moved (hs : step s x = some t) : Moved s t := by
  have hpop : ∀ {u : State} {r ptr : ℕ} {f : Bool}, u.pc = s.pc → s.pc (.owner r) = .fresh →
      u.pop r ptr f = some t → Moved s t := by
    intro u r ptr f hu hk hp
    unfold State.pop at hp
    split at hp
    case h_1 => cases hp
    case h_2 i rest hfree =>
      cases hp
      refine Moved.goto (k := .owner r) (p := .popped i) ?_ ?_ (by rintro _ _ _ ⟨⟩) (by rintro _ _ _ _ ⟨⟩)
      · rw [← hu]
        rfl
      · rw [hk]
        rintro _ ⟨⟩
  cases x with
  | register r ptr f =>
    dsimp only [step] at hs
    split at hs
    case h_1 hk =>
      split at hs
      case isTrue =>
        split at hs
        case isTrue => exact hpop (u := s.grow) rfl hk hs
        case isFalse => cases hs
      case isFalse => exact hpop (u := s) rfl hk hs
    case h_2 => cases hs
  | full r =>
    dsimp only [step] at hs
    split at hs
    case h_1 hk =>
      split at hs
      case isTrue =>
        cases hs
        refine .goto rfl ?_ (by rintro _ _ _ ⟨⟩) (by rintro _ _ _ _ ⟨⟩)
        rw [hk]
        rintro _ ⟨⟩
      case isFalse => cases hs
    case h_2 => cases hs
  | release r wait =>
    dsimp only [step] at hs
    split at hs
    case h_1 hk =>
      cases hs
      refine .keep rfl ?_ (.inr (by rw [hk]; rfl)) (by rw [hk]; rfl)
      rw [hk]
      exact fun h hh => hh
    case h_2 => cases hs
  | pin c r =>
    dsimp only [step] at hs
    split at hs
    case h_1 hk _ =>
      cases hs
      refine .goto rfl ?_ (by rintro _ _ _ _ ⟨⟩) (by rintro _ _ _ ⟨⟩)
      rw [hk]
      rintro _ ⟨⟩
    case h_2 => cases hs
  | unpin c =>
    dsimp only [step] at hs
    split at hs
    case h_1 hk =>
      cases hs
      refine .keep rfl ?_ (.inr (by rw [hk]; rfl)) (by rw [hk]; rfl)
      rw [hk]
      exact fun h hh => hh
    case h_2 => cases hs
  | step k => exact tokenStep_moved hs

/-- An owner's calls are about its own registration. -/
theorem reachable_own
    (hr : Reachable (unwrapped segBits maxSegs) s) {q : ℕ}
    (ha : (s.pc (.owner q)).aim = some (r, h)) : r = q := by
  induction hr generalizing q r h with
  | start hs =>
    rw [hs] at ha
    cases ha
  | next _ hs ih =>
    rcases (step_moved (System.restrict_step.mp hs).2).own q r h ha with hold | rfl
    · exact ih hold
    · rfl

/-- A registration that is over does not resolve. -/
theorem Over.shut
    (hr : Reachable (unwrapped segBits maxSegs) s) (ho : Over s r) : Shut s r := by
  have h := reachable_inv hr
  obtain ⟨⟨a, ha⟩, hpins⟩ := ho
  have hhan : (s.pc (.owner r)).handle = some a := by rw [ha]; rfl
  refine ⟨a, hhan, ?_⟩
  rcases h.past r a hhan with hlt | ⟨heq, ⟨hne, hreg⟩ | ⟨hempty, -⟩⟩
  · exact .inl (Nat.ne_of_gt hlt)
  · right
    apply h.rc_zero.mpr
    right
    by_contra hfull
    -- whoever holds the slot would be the owner or a pin of `r`
    obtain ⟨u, hu⟩ := List.exists_mem_of_ne_nil _ hne
    obtain ⟨q, b, hb, hbi⟩ := (h.spent _ u hu).resolve_right hfull
    obtain ⟨-, hq, -⟩ := h.holder u q b hb
    rw [hbi, hreg] at hq
    subst hq
    cases u with
    | owner q =>
      obtain rfl := reachable_own hr (Pc.aim_of_ref hb)
      rw [ha] at hb
      cases hb
    | pin c => exact hpins c b hb
  · exact .inr (h.rc_zero.mpr (.inl hempty))

/-- **Step lemma.** What does not resolve stays so. -/
theorem Shut.next (h : Inv s) (hw : wraps s x = false)
    (hs : step s x = some t) (hr : Shut s r) : Shut t r := by
  obtain ⟨a, ha, hshut⟩ := hr
  refine ⟨a, (step_moved hs).handle r a ha, ?_⟩
  have hle : a.gen ≤ (s.slots a.idx).gen := by
    rcases h.past r a ha with hlt | ⟨heq, -⟩
    · exact Nat.le_of_lt hlt
    · exact Nat.le_of_eq heq
  rcases step_turned h hw hs a.idx with ⟨hg, hrc⟩ | hg
  · by_cases hne : (s.slots a.idx).gen = a.gen
    · right
      have hz := hshut.resolve_left (fun hn => hn hne)
      rcases hrc with hrc | hrc | hrc | ⟨q, b, hq, hqi⟩
      · rw [hrc, hz]
      · exact absurd hz hrc
      · exact hrc
      · -- the slot would be in the hands of its reclaim and of a registration
        have hx : (s.pc (.owner q)).excl = some a.idx := by
          rw [hq, ← hqi]
          rfl
        obtain ⟨hempty, -, -, hone⟩ := h.alone _ _ hx
        rcases h.past r a ha with hlt | ⟨-, ⟨hn, -⟩ | ⟨-, u, c, hc, hci⟩⟩
        · omega
        · exact absurd hempty hn
        · rw [hone u (hci ▸ Pc.closing_excl hc), hq] at hc
          cases hc
    · left
      rw [hg]
      exact hne
  · left
    omega

/-- **Run lemma.** -/
theorem Over.run {as : List Action}
    (hr : Reachable (unwrapped segBits maxSegs) s) (hshut : Shut s r)
    (hpins : ∀ c h, (s.pc (.pin c)).ref ≠ some (r, h))
    (hrun : (unwrapped segBits maxSegs).run s as = some t) :
    Shut t r ∧ ∀ c h, (t.pc (.pin c)).ref ≠ some (r, h) := by
  induction as generalizing s with
  | nil =>
    cases hrun
    exact ⟨hshut, hpins⟩
  | cons x as ih =>
    obtain ⟨u, hu, hrest⟩ := Option.bind_eq_some_iff.mp hrun
    obtain ⟨hw, hst⟩ := System.restrict_step.mp hu
    have hinv := reachable_inv hr
    refine ih (hr.next hu) (hshut.next hinv hw hst) ?_ hrest
    intro c h hc
    rcases (step_moved hst).ref c r h hc with hold | ⟨haim, hg, hrc⟩
    · exact hpins c h hold
    · obtain ⟨a, ha, hor⟩ := hshut
      rw [hinv.aim _ r h haim] at ha
      cases ha
      rcases hor with hne | hz
      · exact hne hg
      · exact hrc hz

/-- The next step of a pin whose handle does not resolve returns `NULL`. -/
theorem Shut.null (h : Inv s) {c : ℕ} (hs : Shut s r)
    (hc : s.pc (.pin c) = .pinLoad r a ∨ ∃ n, s.pc (.pin c) = .pinCas r a n) :
    ∃ t, step s (.step (.pin c)) = some t ∧ t.pc (.pin c) = .null r a := by
  have haim : (s.pc (.pin c)).aim = some (r, a) := by
    rcases hc with hc | ⟨n, hc⟩
    all_goals
      rw [hc]
      rfl
  obtain ⟨b, hb, hshut⟩ := hs
  rw [h.aim _ r a haim] at hb
  cases hb
  have hcheck : (pinCheck s (.pin c) r a).pc (.pin c) = .null r a := by
    unfold pinCheck
    dsimp only
    rw [if_pos hshut]
    exact if_pos rfl
  rcases hc with hc | ⟨n, hc⟩
  · by_cases hsz : a.idx < s.size
    · exact ⟨_, by simp [step, tokenStep, hc, hsz], hcheck⟩
    · exact ⟨s.goto (.pin c) (.null r a), by simp [step, tokenStep, hc, hsz], if_pos rfl⟩
  · have hcas : ¬((s.slots a.idx).gen = a.gen ∧ (s.slots a.idx).rc = n + 1) := by
      rintro ⟨hg, hrc⟩
      rcases hshut with hne | hz
      · exact hne hg
      · omega
    exact ⟨_, by simp [step, tokenStep, hc, hcas], hcheck⟩

/-- **Generation handles.** In every run in which no generation wraps, a pin that
holds an object holds the one given to the registration its handle came from, and
that registration is live; once the release of a registration has returned and
its pins are dropped, every later pin of its handle returns `NULL`. -/
theorem unwrapped_neverStale {segBits maxSegs : ℕ} {s : State}
    (hr : Reachable (unwrapped segBits maxSegs) s) :
    (∀ c r h p, s.pc (.pin c) = .holds r h p →
      s.reclaimed r = false ∧ p = some (s.ptrOf r)) ∧
    ∀ r, Over s r → ∀ as t, (unwrapped segBits maxSegs).run s as = some t →
      (∀ c h p, t.pc (.pin c) ≠ .holds r h p) ∧
      ∀ c h, (t.pc (.pin c) = .pinLoad r h ∨ ∃ n, t.pc (.pin c) = .pinCas r h n) →
        ∃ u, step t (.step (.pin c)) = some u ∧ u.pc (.pin c) = .null r h := by
  have h := reachable_inv hr
  constructor
  · intro c r a p hc
    obtain ⟨hmem, hreg, -⟩ := h.holder (.pin c) r a (by rw [hc]; rfl)
    refine ⟨?_, h.held c r a p hc⟩
    rw [← hreg]
    exact (h.current _ (List.ne_nil_of_mem hmem)).2.2.1
  · intro r ho as t hrun
    obtain ⟨hshut, hpins⟩ := Over.run hr (ho.shut hr) ho.2 hrun
    constructor
    · intro c a p hc
      exact hpins c a (by rw [hc]; rfl)
    · intro c a hc
      exact hshut.null (reachable_inv (hr.run hrun)) hc

/-- A registration, a pin of it that is dropped, and the release. -/
theorem unwrapped_neverStale_released :
    ∃ s, Reachable (unwrapped 1 1) s ∧ Over s 0 ∧
      ∀ as t, (unwrapped 1 1).run s as = some t → ∀ c h p, t.pc (.pin c) ≠ .holds 0 h p := by
  have hr := reachable_of_run (unwrapped 1 1)
    (.flatten [[.register 0 7 false], .replicate 3 (.step (.owner 0)), [.pin 0 0],
      .replicate 3 (.step (.pin 0)), [.unpin 0], .replicate 2 (.step (.pin 0)), [.release 0 false],
      .replicate 6 (.step (.owner 0))]) rfl rfl
  refine ⟨_, hr, ?_, fun as t hrun => ((unwrapped_neverStale hr).2 0 ?_ as t hrun).1⟩
  all_goals
    refine ⟨⟨⟨1, 0⟩, rfl⟩, fun c h => ?_⟩
    rcases c with _ | c
    all_goals rintro ⟨⟩

/-! ## Past the 32 bits -/

/-- Slot 1 is free after `n` registrations and their releases; the first of them
was given the object 10. -/
structure Idle (n : ℕ) (s : State) : Prop where
  bits : s.segBits = 1
  segs : s.segs = 1
  free : s.free = [1]
  gen : (s.slots 1).gen = n % span
  rc : (s.slots 1).rc = 0
  fresh : ∀ q, n ≤ q → s.pc (.owner q) = .fresh
  pins : ∀ c, s.pc (.pin c) = .fresh
  first : s.pc (.owner 0) = .gone 0 ⟨1, 0⟩
  given : s.ptrOf 0 = 10
  reclaimed : s.reclaimed 0 = true

theorem idle_one : ∃ s, Reachable (system 1 1) s ∧ Idle 1 s := by
  have hr := reachable_of_run (system 1 1)
    (.flatten [[.register 0 10 false], .replicate 3 (.step (.owner 0)), [.release 0 false],
      .replicate 6 (.step (.owner 0))]) rfl rfl
  refine ⟨_, hr, rfl, rfl, rfl, rfl, rfl, ?_, fun _ => rfl, rfl, rfl, rfl⟩
  intro q hq
  rcases q with _ | q
  · omega
  · rfl

/-- Slot 1 is taken by registration `n`. -/
structure Taken (n : ℕ) (s : State) : Prop where
  bits : s.segBits = 1
  segs : s.segs = 1
  free : s.free = []
  gen : (s.slots 1).gen = n % span
  rc : (s.slots 1).rc = 1
  ptr : (s.slots 1).ptr = some 20
  reg : (s.slots 1).reg = n
  owner : s.pc (.owner n) = .holds n ⟨1, n % span⟩ none
  fresh : ∀ q, n < q → s.pc (.owner q) = .fresh
  pins : ∀ c, s.pc (.pin c) = .fresh
  first : s.pc (.owner 0) = .gone 0 ⟨1, 0⟩
  given : s.ptrOf 0 = 10
  reclaimed : s.reclaimed 0 = true

theorem Idle.register (h : Idle n s) (hn : n ≠ 0) :
    ∃ t, (system 1 1).run s (.register n 20 false :: .replicate 3 (.step (.owner n))) = some t ∧
      Taken n t := by
  generalize hrun : (system 1 1).run s _ = o
  simp [System.run, system, step, tokenStep, State.pop, State.goto, State.setSlot, h.free,
    h.gen, h.fresh n (Nat.le_refl n)] at hrun
  subst hrun
  refine ⟨_, rfl, ?_⟩
  constructor
  case bits => exact h.bits
  case segs => exact h.segs
  case free => rfl
  case gen => rfl
  case rc => rfl
  case ptr => rfl
  case reg => rfl
  case owner => simp
  case fresh =>
    intro q hq
    have hne : q ≠ n := by omega
    simpa [hne] using h.fresh q (by omega)
  case pins => simpa using h.pins
  case first => simpa [hn.symm] using h.first
  case given => simpa [hn.symm] using h.given
  case reclaimed => exact h.reclaimed

theorem goto_pc_self (s : State) (t : Token) (p : Pc) : (s.goto t p).pc t = p := if_pos rfl

theorem goto_pc_other (s : State) {t u : Token} (p : Pc) (hu : u ≠ t) :
    (s.goto t p).pc u = s.pc u := if_neg hu

theorem run_deref (as : List Action)
    (hpc : s.pc (.owner n) = .deref r h wait d) :
    (system 1 1).run s (.step (.owner n) :: as) =
      (system 1 1).run (derefStep s (.owner n) r h wait d) as := by
  simp only [System.run, system, step, tokenStep, hpc, Option.bind_some]

/-- The four steps of a reclaim: the slot has the next generation and is free again. -/
theorem run_reclaim
    (hpc : s.pc (.owner n) = .deref r h false .clear) :
    ∃ t, (system 1 1).run s (.replicate 4 (.step (.owner n))) = some t ∧
      t.segBits = s.segBits ∧ t.segs = s.segs ∧ t.free = h.idx :: s.free ∧
      (t.slots h.idx).gen = (h.gen + 1) % span ∧ (t.slots h.idx).rc = 0 ∧
      (∀ u, u ≠ .owner n → t.pc u = s.pc u) ∧ t.ptrOf = s.ptrOf ∧ t.reclaimed = s.reclaimed := by
  let w := s.slots h.idx
  let s₁ := (s.setSlot h.idx { w with ptr := none, freeFn := false }).goto (.owner n)
    (.deref r h false (.bump w.ptr w.freeFn))
  let s₂ := (s₁.setSlot h.idx { s₁.slots h.idx with gen := (h.gen + 1) % span, rc := 0 }).goto
    (.owner n) (.deref r h false (.free w.ptr w.freeFn))
  let s₃ := { s₂ with freed := if w.freeFn then s₂.freed ++ w.ptr.toList else s₂.freed }.goto
    (.owner n) (.deref r h false .push)
  let t := { s₃ with free := h.idx :: s₃.free }.goto (.owner n) (.gone r h)
  have hclear : derefStep s (.owner n) r h false .clear = s₁ := rfl
  have hbump : derefStep s₁ (.owner n) r h false (.bump w.ptr w.freeFn) = s₂ := rfl
  have hfree : derefStep s₂ (.owner n) r h false (.free w.ptr w.freeFn) = s₃ := rfl
  have hpush : derefStep s₃ (.owner n) r h false .push = t := rfl
  have hslot : t.slots h.idx = { s₁.slots h.idx with gen := (h.gen + 1) % span, rc := 0 } :=
    if_pos rfl
  refine ⟨t, ?_, ?_, ?_, ?_, by rw [hslot], by rw [hslot], fun u hu => ?_, ?_, ?_⟩
  case refine_1 =>
    rw [List.replicate, run_deref _ hpc, hclear, List.replicate, run_deref _ (goto_pc_self _ _ _),
      hbump, List.replicate, run_deref _ (goto_pc_self _ _ _), hfree, List.replicate,
      run_deref _ (goto_pc_self _ _ _), hpush]
    rfl
  case refine_5 =>
    exact (goto_pc_other _ _ hu).trans <| (goto_pc_other _ _ hu).trans <|
      (goto_pc_other _ _ hu).trans (goto_pc_other _ _ hu)
  -- by the definitions and not by `rfl`, which would compare the whole states
  all_goals simp only [t, s₃, s₂, s₁, State.goto, State.setSlot]

/-- The owner drops the last reference, and the reclaim begins. -/
theorem Taken.drop (h : Taken n s) :
    ∃ t, (system 1 1).run s [.release n false, .step (.owner n), .step (.owner n)] = some t ∧
      t.segBits = s.segBits ∧ t.segs = s.segs ∧ t.free = s.free ∧
      t.pc (.owner n) = .deref n ⟨1, n % span⟩ false .clear ∧
      (∀ u, u ≠ .owner n → t.pc u = s.pc u) ∧ t.ptrOf = s.ptrOf ∧
      ∀ q, s.reclaimed q = true → t.reclaimed q = true := by
  have hsize : 1 < s.size := by
    rw [State.size, h.bits, h.segs]
    decide
  have hlive : ¬ ((s.slots 1).gen ≠ n % span ∨ (s.slots 1).rc = 0) := by simp [h.gen, h.rc]
  let s₁ := s.goto (.owner n) (.deref n ⟨1, n % span⟩ false .load)
  let s₂ := s₁.goto (.owner n) (.deref n ⟨1, n % span⟩ false (.cas 0))
  let s₃ := { s₂.setSlot 1
      { s.slots 1 with rc := 0, refs := (s.slots 1).refs.erase (.owner n) } with
    reclaimed := fun q => if q = (s.slots 1).reg then true else s.reclaimed q }.goto
      (.owner n) (.deref n ⟨1, n % span⟩ false .clear)
  have hrelease : (system 1 1).run s [.release n false, .step (.owner n), .step (.owner n)] =
      (system 1 1).run s₁ [.step (.owner n), .step (.owner n)] := by
    simp only [System.run, system, step, h.owner, Option.bind_some, s₁]
  have hload : derefStep s₁ (.owner n) n ⟨1, n % span⟩ false .load = s₂ := by
    refine (if_pos hsize).trans ((if_neg hlive).trans ?_)
    show State.goto _ _ (.deref n ⟨1, n % span⟩ false (.cas ((s.slots 1).rc - 1))) = _
    rw [h.rc]
  have hcas : derefStep s₂ (.owner n) n ⟨1, n % span⟩ false (.cas 0) = s₃ :=
    (if_pos ⟨h.gen, h.rc⟩).trans (if_pos rfl)
  refine ⟨s₃, ?_, rfl, rfl, rfl, goto_pc_self _ _ _, fun u hu => ?_, rfl, fun q hq => ?_⟩
  · rw [hrelease, run_deref _ (goto_pc_self _ _ _), hload, run_deref _ (goto_pc_self _ _ _), hcas]
    rfl
  · exact (goto_pc_other _ _ hu).trans <| (goto_pc_other _ _ hu).trans (goto_pc_other _ _ hu)
  · show (if q = (s.slots 1).reg then true else s.reclaimed q) = true
    rw [hq, ite_self]

/-- The count of the slot goes to 0. -/
theorem Taken.release (h : Taken n s) (hn : n ≠ 0) :
    ∃ as t, (system 1 1).run s as = some t ∧ Idle (n + 1) t := by
  obtain ⟨u, hdrop, hbits, hsegs, hfree, hpc, hpcs, hptr, hrec⟩ := h.drop
  obtain ⟨t, hrun, hbits', hsegs', hfree', hgen, hrc, hpcs', hptr', hrec'⟩ := run_reclaim hpc
  have hother : ∀ v, v ≠ .owner n → t.pc v = s.pc v := fun v hv => (hpcs' v hv).trans (hpcs v hv)
  refine ⟨_, t, System.run_trans _ hdrop hrun, ?_⟩
  constructor
  case bits => rw [hbits', hbits, h.bits]
  case segs => rw [hsegs', hsegs, h.segs]
  case free => rw [hfree', hfree, h.free]
  case gen => rw [hgen, Nat.mod_add_mod]
  case rc => exact hrc
  case fresh =>
    intro q hq
    have hne : Token.owner q ≠ .owner n := by
      rintro ⟨⟩
      omega
    rw [hother _ hne, h.fresh q (by omega)]
  case pins =>
    intro c
    rw [hother (.pin c) (by rintro ⟨⟩), h.pins c]
  case first => rw [hother _ (by rintro ⟨⟩; exact hn rfl), h.first]
  case given => rw [hptr', hptr, h.given]
  case reclaimed => rw [hrec', hrec 0 h.reclaimed]

theorem Idle.run (h : Idle 1 s) (n : ℕ) :
    ∃ as t, (system 1 1).run s as = some t ∧ Idle (n + 1) t := by
  induction n with
  | zero => exact ⟨[], s, rfl, h⟩
  | succ n ih =>
    obtain ⟨as, u, hrun, hu⟩ := ih
    obtain ⟨v, hreg, hv⟩ := hu.register (Nat.succ_ne_zero n)
    obtain ⟨bs, t, hrel, ht⟩ := hv.release (Nat.succ_ne_zero n)
    exact ⟨_, t, System.run_trans _ hrun (System.run_trans _ hreg hrel), ht⟩

/-- After as many registrations as there are generations, the first handle names
the slot again. -/
theorem Taken.resolves (h : Taken span s) :
    ∃ t, (system 1 1).run s (.pin 0 0 :: .replicate 3 (.step (.pin 0))) = some t ∧
      t.pc (.pin 0) = .holds 0 ⟨1, 0⟩ (some 20) ∧ t.reclaimed 0 = true ∧ t.ptrOf 0 = 10 := by
  generalize hrun : (system 1 1).run s _ = o
  simp [System.run, system, step, tokenStep, pinCheck, State.goto, State.setSlot, State.size,
    Pc.handle, h.bits, h.segs, h.gen, h.rc, h.ptr, h.first, h.pins] at hrun
  subst hrun
  exact ⟨_, rfl, rfl, h.reclaimed, h.given⟩

/-- The two ways in which a handle outlives its registration's release: a pin
that is still held keeps the object, for other pins too; and a handle is valid
again once the generations of its slot have come round. -/
theorem pin_afterRelease :
    (∃ s t as, Reachable (system 1 1) s ∧ s.pc (.owner 0) = .gone 0 ⟨1, 0⟩ ∧
      s.pc (.pin 1) = .fresh ∧ (system 1 1).run s as = some t ∧
      t.pc (.pin 1) = .holds 0 ⟨1, 0⟩ (some 10)) ∧
    ∃ s, Reachable (system 1 1) s ∧ s.pc (.pin 0) = .holds 0 ⟨1, 0⟩ (some 20) ∧
      s.reclaimed 0 = true ∧ s.ptrOf 0 = 10 := by
  constructor
  · have hr := reachable_of_run (system 1 1)
      (.flatten [[.register 0 10 false], .replicate 3 (.step (.owner 0)), [.pin 0 0],
        .replicate 3 (.step (.pin 0)), [.release 0 false], .replicate 2 (.step (.owner 0))]) rfl rfl
    exact ⟨_, _, .pin 1 0 :: .replicate 3 (.step (.pin 1)), hr, rfl, rfl, rfl, rfl⟩
  · obtain ⟨s₀, hr₀, hs₀⟩ := idle_one
    obtain ⟨as, s, hrun₀, hs⟩ := hs₀.run (span - 1)
    have hr := hr₀.run hrun₀
    rw [Nat.sub_add_cancel (Nat.le_of_lt one_lt_span)] at hs
    obtain ⟨t, hrun, ht⟩ := hs.register (by decide)
    obtain ⟨u, hrun', hpin, hrec, hptr⟩ := ht.resolves
    exact ⟨u, (hr.run hrun).run hrun', hpin, hrec, hptr⟩

end Stackweave.HandleTable
