import Mathlib.Data.Finset.Card
import Mathlib.Data.List.Nodup
import Stackweave.Monkey.Parker
import Stackweave.Transition

/-!
# `CoSimpleQueue` (`monkey/queues.py`)

Any number of `put` and `get` calls on one queue, each an actor of its own.
A step is one operation on `_items` or `_waiters`, one access to the `active`
flag of a record, the write of a wake byte, or the return of a park. A record
belongs to one `get` and carries its number. A park returns when the wake byte
is there, and may also return at any time (a timeout, a stale byte of a pooled
pipe, an early `wait_fd`). The clock is the choice to `expire`.
-/

namespace Stackweave.Monkey.Queue

open Transition

/-- Where a `get` stands; each constructor of an unfinished call names what it
does next. -/
inductive GetPc (V : Type*)
  | fresh
  /-- a foreign thread polls `_items` -/
  | spin (timed : Bool)
  /-- constructs its parker -/
  | build (timed : Bool)
  | register (timed : Bool)
  /-- the pop after the first registration -/
  | repop (timed : Bool)
  /-- the pop at the head of the loop -/
  | loop (timed : Bool)
  | deadline (timed : Bool)
  /-- `rec not in self._waiters` -/
  | lookup (timed : Bool)
  | reappend (timed : Bool)
  /-- the pop after a later registration -/
  | recheck (timed : Bool)
  | parked (timed : Bool)
  /-- stores `rec[1] = False`; `none` is a timeout -/
  | leaving (result : Option V)
  /-- `self._waiters.remove(rec)` -/
  | removing (result : Option V)
  /-- `p.release()` -/
  | releasing (result : Option V)
  | returned (result : Option V)

inductive PutPc
  | fresh
  /-- `if self._waiters` -/
  | check
  /-- `wake_one` pops a record -/
  | scan
  /-- `wake_one` reads the flag of the record it popped -/
  | read (getter : ℕ)
  | unpark (getter : ℕ)
  | done

/-- `puts` and `pops` are the items in the order of the appends and of the
pops. `seen` tells that a put has read the flag of a getter as `True` since the
getter's last pop. All three are history. -/
structure State (V : Type*) where
  items : List V
  waiters : List ℕ
  active : ℕ → Bool
  byte : ℕ → Bool
  get : ℕ → GetPc V
  put : ℕ → PutPc
  puts : List V
  pops : List (ℕ × V)
  seen : ℕ → Bool

def init (V : Type*) : State V :=
  { items := [], waiters := [], active := fun _ => false, byte := fun _ => false
    get := fun _ => .fresh, put := fun _ => .fresh, puts := [], pops := [], seen := fun _ => false }

inductive Action (V : Type*)
  | get (n : ℕ) (block fiber timed : Bool)
  | getter (n : ℕ)
  | expire (n : ℕ)
  | spurious (n : ℕ)
  | put (a : ℕ) (item : V)
  | putter (a : ℕ)

variable {V : Type*}

@[simp]
def State.goto (s : State V) (n : ℕ) (p : GetPc V) : State V :=
  { s with get := fun m => if m = n then p else s.get m }

@[simp]
def State.putGoto (s : State V) (a : ℕ) (p : PutPc) : State V :=
  { s with put := fun b => if b = a then p else s.put b }

@[simp]
def State.setSeen (s : State V) (n : ℕ) (b : Bool) : State V :=
  { s with seen := fun m => if m = n then b else s.seen m }

/-- `self._items.popleft()` by the getter `n`, and where each outcome leads. -/
def State.popleft (s : State V) (n : ℕ) (hit : V → GetPc V) (miss : GetPc V) : State V :=
  match s.items with
  | [] => (s.setSeen n false).goto n miss
  | x :: xs =>
    ({ s with items := xs, pops := s.pops ++ [(n, x)] }.setSeen n false).goto n (hit x)

@[simp]
def State.setActive (s : State V) (n : ℕ) (b : Bool) : State V :=
  { s with active := fun m => if m = n then b else s.active m }

@[simp]
def State.setByte (s : State V) (n : ℕ) (b : Bool) : State V :=
  { s with byte := fun m => if m = n then b else s.byte m }

/-- `self._waiters.append(rec)` -/
@[simp]
def State.append (s : State V) (n : ℕ) : State V := { s with waiters := s.waiters ++ [n] }

def getterStep (s : State V) (n : ℕ) : Option (State V) :=
  match s.get n with
  | .spin timed => some (s.popleft n (fun x => .returned (some x)) (.spin timed))
  | .build timed => some (s.goto n (.register timed))
  | .register timed => some (((s.append n).setActive n true).goto n (.repop timed))
  | .repop timed => some (s.popleft n (fun x => .leaving (some x)) (.loop timed))
  | .loop timed => some (s.popleft n (fun x => .leaving (some x)) (.deadline timed))
  | .deadline timed => some (s.goto n (.lookup timed))
  | .lookup timed =>
    if n ∈ s.waiters then some (s.goto n (.parked timed)) else some (s.goto n (.reappend timed))
  | .reappend timed => some ((s.append n).goto n (.recheck timed))
  | .recheck timed => some (s.popleft n (fun x => .leaving (some x)) (.parked timed))
  | .parked timed =>
    if s.byte n then some ((s.setByte n false).goto n (.loop timed)) else none
  | .leaving r => some ((s.setActive n false).goto n (.removing r))
  -- `remove` of a record that a put has popped raises `ValueError`, which is dropped
  | .removing r => some ({ s with waiters := s.waiters.erase n }.goto n (.releasing r))
  | .releasing r => some (s.goto n (.returned r))
  | _ => none

def putterStep (s : State V) (a : ℕ) : Option (State V) :=
  match s.put a with
  | .check => some (s.putGoto a (if s.waiters = [] then .done else .scan))
  | .scan =>
    match s.waiters with
    | [] => some (s.putGoto a .done)
    | n :: ns => some ({ s with waiters := ns }.putGoto a (.read n))
  | .read n =>
    if s.active n then some ((s.setSeen n true).putGoto a (.unpark n))
    else some (s.putGoto a .scan)
  | .unpark n => some ((s.setByte n true).putGoto a .done)
  | _ => none

@[grind =]
def step (s : State V) : Action V → Option (State V)
  | .get n block fiber timed =>
    match s.get n with
    | .fresh =>
      let miss := if !block then .returned none else if !fiber then .spin timed else .build timed
      some (s.popleft n (fun x => .returned (some x)) miss)
    | _ => none
  | .getter n => getterStep s n
  | .expire n =>
    match s.get n with
    | .spin true => some (s.goto n (.returned none))
    | .deadline true => some (s.goto n (.leaving none))
    | _ => none
  | .spurious n =>
    match s.get n with
    | .parked timed => some (s.goto n (.loop timed))
    | _ => none
  | .put a item =>
    match s.put a with
    | .fresh => some ({ s with items := s.items ++ [item], puts := s.puts ++ [item] }.putGoto a .check)
    | _ => none
  | .putter a => putterStep s a

def system (V : Type*) : System (State V) (Action V) where
  init s := s = init V
  step := step

/-! ## The items -/

/-- What a getter took and has returned or will return. -/
@[grind =]
def GetPc.took : GetPc V → Option V
  | .leaving r | .removing r | .releasing r | .returned r => r
  | _ => none

/-- Items leave in the order of the puts, each to one getter, and a getter
returns the one it took. -/
structure Conserved (s : State V) : Prop where
  order : s.puts = s.pops.map Prod.snd ++ s.items
  once : (s.pops.map Prod.fst).Nodup
  taken : ∀ n x, (n, x) ∈ s.pops ↔ (s.get n).took = some x

/-! ## When a getter is stranded -/

def GetPc.inProgress : GetPc V → Bool
  | .fresh | .returned _ => false
  | _ => true

def PutPc.inProgress : PutPc → Bool
  | .fresh | .done => false
  | _ => true

/-- No put is in progress, and every get in progress is parked without a byte. -/
def Quiet (s : State V) : Prop :=
  (∀ a, (s.put a).inProgress = false) ∧
  ∀ n, (s.get n).inProgress = true → (∃ timed, s.get n = .parked timed) ∧ s.byte n = false

/-- No quiet state has both a getter and an item. -/
def NeverStrands (s : State V) : Prop :=
  Quiet s → ∀ n, (s.get n).inProgress = true → s.items = []

/-- The condition on a step: a put does not read a flag as `True` after the
getter's last pop, when the getter already has its item or gives up. -/
def inWindow (s : State V) : Action V → Bool
  | .putter a =>
    match s.put a with
    | .read n =>
      s.active n && match s.get n with
        | .leaving _ => true
        | _ => false
    | _ => false
  | .expire n => s.seen n
  | _ => false

/-- The runs in which no wake is spent on a getter that makes no further pop. -/
def spared (V : Type*) : System (State V) (Action V) :=
  (system V).restrict fun s a => inWindow s a = false

variable {s t : State V} {n a : ℕ} {p : GetPc V} {A S : Finset ℕ}

theorem popleft_nil (h : s.items = []) (n : ℕ) (hit : V → GetPc V)
    (miss : GetPc V) : s.popleft n hit miss = (s.setSeen n false).goto n miss := by
  rw [State.popleft, h]

theorem popleft_cons {x : V} {xs : List V} (h : s.items = x :: xs) (n : ℕ)
    (hit : V → GetPc V) (miss : GetPc V) : s.popleft n hit miss =
      ({ s with items := xs, pops := s.pops ++ [(n, x)] }.setSeen n false).goto n (hit x) := by
  rw [State.popleft, h]

theorem popleft_conserved (h : Conserved s) {hit : V → GetPc V}
    {miss : GetPc V} (hn : (s.get n).took = none) (hhit : ∀ x, (hit x).took = some x)
    (hmiss : miss.took = none) : Conserved (s.popleft n hit miss) := by
  have hnot : ∀ x, (n, x) ∉ s.pops := by
    intro x hx
    have := (h.taken n x).mp hx
    rw [hn] at this
    cases this
  cases hi : s.items with
  | nil =>
    rw [popleft_nil hi]
    refine ⟨h.order, h.once, fun m x => ?_⟩
    by_cases hm : m = n
    · subst hm
      simp [hmiss, hnot x]
    · simpa [hm] using h.taken m x
  | cons y ys =>
    rw [popleft_cons hi]
    refine ⟨by simp [h.order, hi], ?_, fun m x => ?_⟩
    · have hfst : n ∉ s.pops.map Prod.fst := by
        intro hmem
        obtain ⟨⟨k, x⟩, hx, rfl⟩ := List.mem_map.mp hmem
        exact hnot x hx
      have hone := List.nodup_append.mpr ⟨h.once, List.nodup_singleton n, fun a ha b hb he => by
        rw [he, List.mem_singleton.mp hb] at ha
        exact hfst ha⟩
      simpa using hone
    · by_cases hm : m = n
      · subst hm
        simp [hhit, hnot x, eq_comm]
      · simpa [hm] using h.taken m x

/-- A getter moves on with the items and what it took unchanged. -/
theorem Conserved.goto (h : Conserved s)
    (hp : p.took = (s.get n).took) (hget : t.get = fun m => if m = n then p else s.get m)
    (hputs : t.puts = s.puts) (hpops : t.pops = s.pops) (hitems : t.items = s.items) :
    Conserved t := by
  refine ⟨by rw [hputs, hpops, hitems, h.order], by rw [hpops]; exact h.once, fun m x => ?_⟩
  rw [hpops, hget]
  by_cases hm : m = n
  · subst hm
    simpa [hp] using h.taken m x
  · simpa [hm] using h.taken m x

theorem step_conserved {a : Action V} (h : Conserved s) (hs : step s a = some t) :
    Conserved t := by
  have hputter : ∀ u : State V, u.get = s.get → u.puts = s.puts → u.pops = s.pops →
      u.items = s.items → Conserved u := by
    intro u hget hputs hpops hitems
    refine ⟨by rw [hputs, hpops, hitems, h.order], by rw [hpops]; exact h.once, ?_⟩
    rw [hpops, hget]
    exact h.taken
  cases a with
  | get n block fiber timed =>
    simp only [step] at hs
    split at hs
    case h_2 => cases hs
    case h_1 hpc =>
      cases hs
      apply popleft_conserved h (by rw [hpc]; rfl) (fun _ => rfl)
      repeat' split
      all_goals rfl
  | getter n =>
    simp only [step, getterStep] at hs
    split at hs
    case h_1 hpc | h_4 hpc | h_5 hpc | h_9 hpc =>
      cases hs
      exact popleft_conserved h (by rw [hpc]; rfl) (fun _ => rfl) rfl
    case h_2 hpc | h_3 hpc | h_6 hpc | h_8 hpc | h_11 hpc | h_12 hpc | h_13 hpc =>
      cases hs
      exact h.goto (by rw [hpc]; rfl) rfl rfl rfl rfl
    case h_7 hpc =>
      split at hs
      all_goals
        cases hs
        exact h.goto (by rw [hpc]; rfl) rfl rfl rfl rfl
    case h_10 hpc =>
      split at hs
      case isTrue =>
        cases hs
        exact h.goto (by rw [hpc]; rfl) rfl rfl rfl rfl
      case isFalse => cases hs
    case h_14 => cases hs
  | expire n =>
    simp only [step] at hs
    split at hs
    case h_1 hpc | h_2 hpc =>
      cases hs
      exact h.goto (by rw [hpc]; rfl) rfl rfl rfl rfl
    case h_3 => cases hs
  | spurious n =>
    simp only [step] at hs
    split at hs
    case h_1 hpc =>
      cases hs
      exact h.goto (by rw [hpc]; rfl) rfl rfl rfl rfl
    case h_2 => cases hs
  | put b item =>
    simp only [step] at hs
    split at hs
    case h_1 =>
      cases hs
      exact ⟨by simp [h.order], h.once, h.taken⟩
    case h_2 => cases hs
  | putter b =>
    simp only [step, putterStep] at hs
    repeat' split at hs
    all_goals first
      | cases hs; done
      | (cases hs; exact hputter _ rfl rfl rfl rfl)

theorem reachable_kept (h : Reachable (system V) s) : Conserved s := by
  induction h with
  | start hs =>
    cases hs
    exact ⟨rfl, List.nodup_nil, fun n x => by simp [init, GetPc.took]⟩
  | next _ hs ih => exact step_conserved ih hs

/-! ## Registration -/

/-- A put has popped the record and not yet read its flag. -/
def Held (s : State V) (n : ℕ) : Prop := ∃ a, s.put a = .read n

/-- The wake byte is there, or a put is about to write it. -/
def Woken (s : State V) (n : ℕ) : Prop := s.byte n = true ∨ ∃ a, s.put a = .unpark n

/-- What holds of the record of a getter at `p`. -/
@[grind =]
def Book (p : GetPc V) (queued : Prop) (active : Bool) (reached : Prop) : Prop :=
  match p with
  | .fresh | .spin _ | .build _ | .register _ | .releasing _ | .returned _ =>
    ¬queued ∧ active = false
  | .reappend _ => ¬queued ∧ active = true
  | .repop _ | .recheck _ | .parked _ => active = true ∧ (queued ∨ reached)
  | .loop _ | .deadline _ | .lookup _ | .leaving _ => active = true
  | .removing _ => active = false

structure Registered (s : State V) : Prop where
  nodup : s.waiters.Nodup
  book : ∀ n, Book (s.get n) (n ∈ s.waiters) (s.active n) (Held s n ∨ Woken s n)

theorem Book.mono {q r r' : Prop} {b : Bool} (h : Book p q b r) (hr : r → r') :
    Book p q b r' := by
  unfold Book at h ⊢
  split at h
  case h_8 | h_9 | h_10 => exact ⟨h.1, h.2.imp_right hr⟩
  all_goals exact h

/-- The getter `n` moves; the deque and the flags of the others stay. -/
theorem Registered.move (h : Registered s)
    (hget : t.get = fun m => if m = n then p else s.get m)
    (hw : t.waiters = s.waiters) (hact : ∀ m, m ≠ n → t.active m = s.active m)
    (hbyte : ∀ m, m ≠ n → t.byte m = s.byte m) (hput : t.put = s.put)
    (hb : Book p (n ∈ s.waiters) (t.active n) (Held t n ∨ Woken t n)) : Registered t := by
  refine ⟨by rw [hw]; exact h.nodup, fun m => ?_⟩
  rw [hget, hw]
  by_cases hm : m = n
  · subst hm
    simpa using hb
  · simpa [hm, hact m hm, Held, Woken, hbyte m hm, hput] using h.book m

theorem popleft_registered (h : Registered s) {hit : V → GetPc V}
    {miss : GetPc V} (hhit : ∀ x, Book (hit x) (n ∈ s.waiters) (s.active n) (Held s n ∨ Woken s n))
    (hmiss : Book miss (n ∈ s.waiters) (s.active n) (Held s n ∨ Woken s n)) :
    Registered (s.popleft n hit miss) := by
  cases hi : s.items with
  | nil =>
    rw [popleft_nil hi]
    exact h.move rfl rfl (fun _ _ => rfl) (fun _ _ => rfl) rfl hmiss
  | cons x xs =>
    rw [popleft_cons hi]
    exact h.move rfl rfl (fun _ _ => rfl) (fun _ _ => rfl) rfl (hhit x)

/-- The getter `n` appends its record. -/
theorem Registered.enter (h : Registered s)
    (hn : n ∉ s.waiters) (hget : t.get = fun m => if m = n then p else s.get m)
    (hw : t.waiters = s.waiters ++ [n]) (hact : ∀ m, m ≠ n → t.active m = s.active m)
    (hbyte : t.byte = s.byte) (hput : t.put = s.put)
    (hb : Book p True (t.active n) False) : Registered t := by
  refine ⟨?_, fun m => ?_⟩
  · rw [hw]
    exact List.nodup_append.mpr ⟨h.nodup, List.nodup_singleton n, fun a ha b hb he => by
      rw [he, List.mem_singleton.mp hb] at ha
      exact hn ha⟩
  rw [hget, hw]
  by_cases hm : m = n
  · subst hm
    simpa using hb.mono False.elim
  · simpa [hm, hact m hm, Held, Woken, hbyte, hput] using h.book m

theorem getterStep_registered (h : Registered s)
    (hs : getterStep s n = some t) : Registered t := by
  have hb := h.book n
  unfold getterStep at hs
  split at hs
  case h_1 hpc =>
    rw [hpc] at hb
    cases hs
    exact popleft_registered h (fun _ => hb) hb
  case h_2 hpc | h_13 hpc =>
    rw [hpc] at hb
    cases hs
    exact h.move rfl rfl (fun _ _ => rfl) (fun _ _ => rfl) rfl hb
  case h_3 hpc =>
    rw [hpc] at hb
    cases hs
    exact h.enter hb.1 rfl rfl (fun m hm => by simp [hm]) rfl rfl ⟨by simp, .inl trivial⟩
  case h_4 hpc | h_5 hpc | h_9 hpc =>
    rw [hpc] at hb
    cases hs
    first
      | exact popleft_registered h (fun _ => hb.1) hb.1
      | exact popleft_registered h (fun _ => hb) hb
      | exact popleft_registered h (fun _ => hb.1) hb
  case h_6 hpc =>
    rw [hpc] at hb
    cases hs
    exact h.move rfl rfl (fun _ _ => rfl) (fun _ _ => rfl) rfl hb
  case h_7 hpc =>
    rw [hpc] at hb
    split at hs
    case isTrue hq =>
      cases hs
      exact h.move rfl rfl (fun _ _ => rfl) (fun _ _ => rfl) rfl ⟨hb, .inl hq⟩
    case isFalse hq =>
      cases hs
      exact h.move rfl rfl (fun _ _ => rfl) (fun _ _ => rfl) rfl ⟨hq, hb⟩
  case h_8 hpc =>
    rw [hpc] at hb
    cases hs
    exact h.enter hb.1 rfl rfl (fun _ _ => rfl) rfl rfl ⟨hb.2, .inl trivial⟩
  case h_10 hpc =>
    rw [hpc] at hb
    split at hs
    case isTrue =>
      cases hs
      exact h.move rfl rfl (fun _ _ => rfl) (fun m hm => by simp [hm]) rfl hb.1
    case isFalse => cases hs
  case h_11 hpc =>
    cases hs
    exact h.move rfl rfl (fun m hm => by simp [hm]) (fun _ _ => rfl) rfl (by simp [Book])
  case h_12 hpc =>
    rw [hpc] at hb
    cases hs
    refine ⟨h.nodup.erase n, fun m => ?_⟩
    by_cases hm : m = n
    · subst hm
      simpa [Book, h.nodup.mem_erase_iff] using hb
    · have : m ∈ s.waiters.erase n ↔ m ∈ s.waiters := List.mem_erase_of_ne hm
      simpa [hm, this, Held, Woken] using h.book m
  case h_14 => cases hs

/-- Only the puts move, and no record loses its waker. -/
theorem Registered.puts (h : Registered s) (hget : t.get = s.get)
    (hw : t.waiters = s.waiters) (hact : t.active = s.active)
    (hr : ∀ n, s.active n = true → Held s n ∨ Woken s n → Held t n ∨ Woken t n) :
    Registered t := by
  refine ⟨by rw [hw]; exact h.nodup, fun n => ?_⟩
  rw [hget, hw, hact]
  have hb := h.book n
  by_cases ha : s.active n = true
  · exact hb.mono (hr n ha)
  · unfold Book at hb ⊢
    split at hb
    case h_8 | h_9 | h_10 => exact absurd hb.1 ha
    all_goals exact hb

/-- A put moves from `read` or `unpark` of at most one getter; the others keep
their waker. -/
theorem reached_of_other {m : ℕ} {q : PutPc}
    (hput : t.put = fun b => if b = a then q else s.put b) (hr : s.put a ≠ .read m)
    (hu : s.put a ≠ .unpark m) (hbyte : s.byte m = true → t.byte m = true)
    (hm : Held s m ∨ Woken s m) : Held t m ∨ Woken t m := by
  rcases hm with ⟨b, hb⟩ | hbt | ⟨b, hb⟩
  · have : b ≠ a := fun he => hr (he ▸ hb)
    exact .inl ⟨b, by simp [hput, this, hb]⟩
  · exact .inr (.inl (hbyte hbt))
  · have : b ≠ a := fun he => hu (he ▸ hb)
    exact .inr (.inr ⟨b, by simp [hput, this, hb]⟩)

theorem putterStep_registered (h : Registered s)
    (hs : putterStep s a = some t) : Registered t := by
  unfold putterStep at hs
  split at hs
  case h_1 hpc =>
    cases hs
    exact h.puts rfl rfl rfl fun m _ => reached_of_other rfl (by simp [hpc]) (by simp [hpc]) id
  case h_2 hpc =>
    split at hs
    case h_1 =>
      cases hs
      exact h.puts rfl rfl rfl fun m _ => reached_of_other rfl (by simp [hpc]) (by simp [hpc]) id
    case h_2 n ns hw =>
      cases hs
      have hnd := h.nodup
      rw [hw] at hnd
      refine ⟨(List.nodup_cons.mp hnd).2, fun m => ?_⟩
      have hb := h.book m
      by_cases hm : m = n
      · -- the popped record: this put holds it now
        subst hm
        have hheld : Held (State.putGoto { s with waiters := ns } a (.read m)) m :=
          ⟨a, by simp⟩
        have hnot : m ∉ ns := (List.nodup_cons.mp hnd).1
        unfold Book at hb ⊢
        simp only [State.putGoto]
        split at hb
        case h_8 | h_9 | h_10 => exact ⟨hb.1, .inr (.inl hheld)⟩
        case h_1 | h_2 | h_3 | h_4 | h_5 | h_6 | h_7 => exact absurd (by simp [hw]) hb.1
        all_goals exact hb
      · have hmem : m ∈ s.waiters ↔ m ∈ ns := by simp [hw, hm]
        rw [hmem] at hb
        exact hb.mono (reached_of_other rfl (by simp [hpc]) (by simp [hpc]) id)
  case h_3 n hpc =>
    split at hs
    case isTrue hact =>
      cases hs
      refine h.puts rfl rfl rfl fun m _ hm => ?_
      by_cases hmn : m = n
      · exact .inr (.inr ⟨a, by simp [hmn]⟩)
      · exact reached_of_other rfl (by simp [hpc, Ne.symm hmn]) (by simp [hpc]) id hm
    case isFalse hact =>
      cases hs
      refine h.puts rfl rfl rfl fun m ha hm => ?_
      have hmn : m ≠ n := fun he => hact (he ▸ ha)
      exact reached_of_other rfl (by simp [hpc, Ne.symm hmn]) (by simp [hpc]) id hm
  case h_4 n hpc =>
    cases hs
    refine h.puts rfl rfl rfl fun m _ hm => ?_
    by_cases hmn : m = n
    · exact .inr (.inl (by simp [hmn]))
    · exact reached_of_other (s := s) rfl (by simp [hpc]) (by simp [hpc, Ne.symm hmn])
        (by simp [hmn]) hm
  case h_5 => cases hs

theorem step_registered {a : Action V} (h : Registered s)
    (hs : step s a = some t) : Registered t := by
  cases a with
  | get n block fiber timed =>
    simp only [step] at hs
    split at hs
    case h_2 => cases hs
    case h_1 hpc =>
      have hb := h.book n
      rw [hpc] at hb
      cases hs
      refine popleft_registered h (fun _ => hb) ?_
      repeat' split
      all_goals exact hb
  | getter n => exact getterStep_registered h hs
  | expire n =>
    simp only [step] at hs
    have hb := h.book n
    split at hs
    case h_1 hpc | h_2 hpc =>
      rw [hpc] at hb
      cases hs
      exact h.move rfl rfl (fun _ _ => rfl) (fun _ _ => rfl) rfl hb
    case h_3 => cases hs
  | spurious n =>
    simp only [step] at hs
    have hb := h.book n
    split at hs
    case h_1 hpc =>
      rw [hpc] at hb
      cases hs
      exact h.move rfl rfl (fun _ _ => rfl) (fun _ _ => rfl) rfl hb.1
    case h_2 => cases hs
  | put a item =>
    simp only [step] at hs
    split at hs
    case h_1 hpc =>
      cases hs
      exact h.puts rfl rfl rfl fun m _ => reached_of_other rfl (by simp [hpc]) (by simp [hpc]) id
    case h_2 => cases hs
  | putter a => exact putterStep_registered h hs

theorem reachable_registered (h : Reachable (system V) s) : Registered s := by
  induction h with
  | start hs =>
    cases hs
    exact ⟨List.nodup_nil, fun n => ⟨by simp [init], rfl⟩⟩
  | next _ hs ih => exact step_registered ih hs

/-! ## The ledger of wakes

While some getter sleeps on its queued record, every queued item has a put that
still looks for a getter, or a getter that a put chose and that will pop again.
The ledger is started afresh by every pop that finds the deque empty. -/

/-- Past its last pop, on the way into the park or in it. -/
@[grind =]
def GetPc.asleep : GetPc V → Bool
  | .deadline _ | .lookup _ | .parked _ => true
  | _ => false

/-- Will pop before it parks. -/
@[grind =]
def GetPc.hunting : GetPc V → Bool
  | .repop _ | .loop _ | .reappend _ | .recheck _ => true
  | _ => false

/-- Between an append of its record and the pop that follows. -/
def GetPc.rechecks : GetPc V → Bool
  | .repop _ | .recheck _ => true
  | _ => false

/-- The getter will pop again. -/
def Up (s : State V) (n : ℕ) : Prop :=
  (s.get n).hunting = true ∨ (s.get n).asleep = true ∧ Woken s n

/-- Asleep with a record that the next puts can find. -/
def Idle (s : State V) (n : ℕ) : Prop := n ∈ s.waiters ∧ (s.get n).asleep = true

/-- `A` are puts that look for a getter, `S` getters that a put chose. -/
structure Ledger (s : State V) (A S : Finset ℕ) : Prop where
  scans : ∀ a ∈ A, s.put a = .check ∨ s.put a = .scan
  owed : ∀ n ∈ S, Held s n ∨ s.seen n = true ∧ Up s n
  requeued : ∀ n ∈ S, n ∈ s.waiters → (s.get n).rechecks = true
  ahead : ∀ n ∈ S, ∀ w, Idle s w → n ∈ s.waiters → [w, n].Sublist s.waiters
  count : ∀ w, Idle s w → s.items.length ≤ A.card + S.card

/-- The empty ledger is good whenever the deque is empty. -/
theorem Ledger.restart (h : s.items = []) : Ledger s ∅ ∅ := by
  refine ⟨by simp, by simp, by simp, by simp, fun w _ => by simp [h]⟩

/-- A getter moves and leaves the deques alone. -/
theorem Ledger.move (h : Ledger s A S)
    (hget : t.get = fun m => if m = n then p else s.get m) (hw : t.waiters = s.waiters)
    (hitems : t.items = s.items) (hput : t.put = s.put) (hseen : t.seen = s.seen)
    (hbyte : ∀ m, m ≠ n → t.byte m = s.byte m)
    (hidle : n ∈ s.waiters → p.asleep = true → (s.get n).asleep = true)
    (howed : n ∈ S → s.seen n = true → Up s n → Up t n)
    (hre : n ∈ S → n ∈ s.waiters → p.rechecks = true) : Ledger t A S := by
  have hother : ∀ m, m ≠ n → t.get m = s.get m := fun m hm => by simp [hget, hm]
  have hI : ∀ w, Idle t w → Idle s w := by
    rintro w ⟨hq, hp⟩
    rw [hw] at hq
    by_cases hwn : w = n
    · subst hwn
      exact ⟨hq, hidle hq (by simpa [hget] using hp)⟩
    · exact ⟨hq, by rw [← hother w hwn]; exact hp⟩
  constructor
  case scans => rw [hput]; exact h.scans
  case owed =>
    intro m hm
    refine (h.owed m hm).imp (fun hh => by simpa [Held, hput] using hh) fun ⟨hs, hu⟩ => ?_
    refine ⟨by rw [hseen]; exact hs, ?_⟩
    by_cases hmn : m = n
    · subst hmn
      exact howed hm hs hu
    · simpa [Up, Woken, hother m hmn, hbyte m hmn, hput] using hu
  case requeued =>
    intro m hm hq
    rw [hw] at hq
    by_cases hmn : m = n
    · subst hmn
      simpa [hget] using hre hm hq
    · simpa [hother m hmn] using h.requeued m hm hq
  case ahead =>
    intro m hm w hi hq
    rw [hw] at hq ⊢
    exact h.ahead m hm w (hI w hi) hq
  case count =>
    intro w hi
    rw [hitems]
    exact h.count w (hI w hi)

/-- A getter appends its record, behind every other. -/
theorem Ledger.enter (h : Ledger s A S)
    (hn : n ∉ s.waiters) (hget : t.get = fun m => if m = n then p else s.get m)
    (hw : t.waiters = s.waiters ++ [n]) (hitems : t.items = s.items) (hput : t.put = s.put)
    (hseen : t.seen = s.seen) (hbyte : t.byte = s.byte) (hp : p.hunting = true)
    (hasleep : p.asleep = false) (hre : p.rechecks = true) : Ledger t A S := by
  have hother : ∀ m, m ≠ n → t.get m = s.get m := fun m hm => by simp [hget, hm]
  have hI : ∀ w, Idle t w → Idle s w := by
    rintro w ⟨hq, hw'⟩
    have hwn : w ≠ n := by
      intro he
      rw [he] at hw'
      simp [hget, hasleep] at hw'
    refine ⟨?_, by rw [← hother w hwn]; exact hw'⟩
    rw [hw] at hq
    simpa [hwn] using hq
  constructor
  case scans => rw [hput]; exact h.scans
  case owed =>
    intro m hm
    refine (h.owed m hm).imp (fun hh => by simpa [Held, hput] using hh) fun ⟨hs, hu⟩ => ?_
    refine ⟨by rw [hseen]; exact hs, ?_⟩
    by_cases hmn : m = n
    · subst hmn
      exact .inl (by simpa [hget] using hp)
    · simpa [Up, Woken, hother m hmn, hbyte, hput] using hu
  case requeued =>
    intro m hm hq
    by_cases hmn : m = n
    · subst hmn
      simpa [hget] using hre
    · rw [hw] at hq
      simpa [hother m hmn] using h.requeued m hm (by simpa [hmn] using hq)
  case ahead =>
    intro m hm w hi hq
    rw [hw]
    by_cases hmn : m = n
    · subst hmn
      exact List.Sublist.append (List.singleton_sublist.mpr (hI w hi).1) (List.Sublist.refl [m])
    · rw [hw] at hq
      exact (h.ahead m hm w (hI w hi) (by simpa [hmn] using hq)).trans
        (List.sublist_append_left _ _)
  case count =>
    intro w hi
    rw [hitems]
    exact h.count w (hI w hi)

/-- A pop by a getter that may be owed a wake: the item it takes settles it. -/
theorem Ledger.hit (h : Ledger s A S) {x : V}
    {xs : List V} (hi : s.items = x :: xs) (hp : p.asleep = false) :
    Ledger (({ s with items := xs, pops := s.pops ++ [(n, x)] }.setSeen n false).goto n p) A
      (S.erase n) := by
  have hI : ∀ w, Idle ((({ s with items := xs, pops := s.pops ++ [(n, x)] } : State V).setSeen n
      false).goto n p) w → Idle s w := by
    rintro w ⟨hq, hw⟩
    have hwn : w ≠ n := by
      intro he
      simp [he, hp] at hw
    exact ⟨hq, by simpa [hwn] using hw⟩
  constructor
  case scans => exact h.scans
  case owed =>
    intro m hm
    obtain ⟨hmn, hm⟩ := Finset.mem_erase.mp hm
    refine (h.owed m hm).imp id fun ⟨hs, hu⟩ => ⟨by simpa [hmn] using hs, ?_⟩
    simpa [Up, Woken, hmn] using hu
  case requeued =>
    intro m hm hq
    obtain ⟨hmn, hm⟩ := Finset.mem_erase.mp hm
    simpa [hmn] using h.requeued m hm hq
  case ahead =>
    intro m hm w hw hq
    exact h.ahead m (Finset.mem_erase.mp hm).2 w (hI w hw) hq
  case count =>
    intro w hw
    have hcount := h.count w (hI w hw)
    rw [hi] at hcount
    have hcard : S.card ≤ (S.erase n).card + 1 := by
      have := Finset.pred_card_le_card_erase (s := S) (a := n)
      omega
    simp only [List.length_cons] at hcount
    simp only [State.goto, State.setSeen]
    omega

theorem popleft_ledger (h : Ledger s A S)
    {hit : V → GetPc V} {miss : GetPc V} (hhit : ∀ x, (hit x).asleep = false) :
    ∃ A S, Ledger (s.popleft n hit miss) A S := by
  cases hi : s.items with
  | nil =>
    rw [popleft_nil hi]
    exact ⟨∅, ∅, Ledger.restart hi⟩
  | cons x xs =>
    rw [popleft_cons hi]
    exact ⟨A, S.erase n, h.hit hi (hhit x)⟩

/-- A getter that leaves takes its record out of the deque. -/
theorem Ledger.remove (h : Ledger s A S) (hr : Registered s)
    {r : Option V} (hpc : s.get n = .removing r) :
    Ledger ({ s with waiters := s.waiters.erase n }.goto n (.releasing r)) A S := by
  have hsub : ∀ w, w ∈ s.waiters.erase n → w ∈ s.waiters := fun w => List.mem_of_mem_erase
  have hne : ∀ w, w ∈ s.waiters.erase n → w ≠ n := by
    intro w hw he
    rw [he] at hw
    exact absurd hw hr.nodup.not_mem_erase
  have hI : ∀ w, Idle ({ s with waiters := s.waiters.erase n }.goto n (.releasing r)) w →
      Idle s w := by
    rintro w ⟨hq, hw⟩
    exact ⟨hsub w hq, by simpa [hne w hq] using hw⟩
  constructor
  case scans => exact h.scans
  case owed =>
    intro m hm
    refine (h.owed m hm).imp id fun ⟨hs, hu⟩ => ⟨hs, ?_⟩
    have hmn : m ≠ n := by
      intro he
      rcases hu with hu | hu
      · simp [he, hpc, GetPc.hunting] at hu
      · simp [he, hpc, GetPc.asleep] at hu
    simpa [Up, Woken, hmn] using hu
  case requeued =>
    intro m hm hq
    simpa [hne m hq] using h.requeued m hm (hsub m hq)
  case ahead =>
    intro m hm w hw hq
    have := (h.ahead m hm w (hI w hw) (hsub m hq)).erase n
    have hwn := hne w hw.1
    have hmn := hne m hq
    simpa [hwn, hmn] using this
  case count =>
    intro w hw
    exact h.count w (hI w hw)

/-- Only puts move: the getters that are owed a wake keep it. -/
theorem Ledger.puts {A' S' : Finset ℕ} (h : Ledger s A S)
    (hget : t.get = s.get) (hw : t.waiters = s.waiters)
    (hscans : ∀ a ∈ A', t.put a = .check ∨ t.put a = .scan) (hsub : S' ⊆ S)
    (howed : ∀ n ∈ S', Held s n ∨ s.seen n = true ∧ Up s n →
      Held t n ∨ t.seen n = true ∧ Up t n)
    (hcount : s.items.length ≤ A.card + S.card → t.items.length ≤ A'.card + S'.card) :
    Ledger t A' S' := by
  have hI : ∀ w, Idle t w → Idle s w := by
    rintro w ⟨hq, hp⟩
    exact ⟨hw ▸ hq, by rw [← hget]; exact hp⟩
  constructor
  case scans => exact hscans
  case owed =>
    intro n hn
    exact howed n hn (h.owed n (hsub hn))
  case requeued =>
    intro n hn hq
    rw [hget]
    exact h.requeued n (hsub hn) (hw ▸ hq)
  case ahead =>
    intro n hn w hi hq
    rw [hw] at hq ⊢
    exact h.ahead n (hsub hn) w (hI w hi) hq
  case count =>
    intro w hi
    exact hcount (h.count w (hI w hi))

/-- What a put that moves on leaves of the wakes of the getters it does not name. -/
theorem owed_of_other {m : ℕ} {q : PutPc} (hget : t.get = s.get)
    (hput : t.put = fun b => if b = a then q else s.put b) (hr : s.put a ≠ .read m)
    (hu : s.put a ≠ .unpark m) (hseen : s.seen m = true → t.seen m = true)
    (hbyte : s.byte m = true → t.byte m = true)
    (hm : Held s m ∨ s.seen m = true ∧ Up s m) : Held t m ∨ t.seen m = true ∧ Up t m := by
  rcases hm with ⟨b, hb⟩ | ⟨hs, hup⟩
  · have : b ≠ a := fun he => hr (he ▸ hb)
    exact .inl ⟨b, by simp [hput, this, hb]⟩
  · refine .inr ⟨hseen hs, ?_⟩
    unfold Up at hup ⊢
    rw [hget]
    refine hup.imp_right fun ⟨hp, hw⟩ => ⟨hp, ?_⟩
    rcases hw with hw | ⟨b, hb⟩
    · exact .inl (hbyte hw)
    · have : b ≠ a := fun he => hu (he ▸ hb)
      exact .inr ⟨b, by simp [hput, this, hb]⟩

/-- `wake_one` pops the first record. A getter that is owed a wake already is
popped a second time only when nobody is idle. -/
theorem Ledger.popRecord (h : Ledger s A S) (hr : Registered s)
    {ns : List ℕ} (hpc : s.put a = .scan) (hw : s.waiters = n :: ns) :
    Ledger ({ s with waiters := ns }.putGoto a (.read n)) (A.erase a) (insert n S) := by
  have hnd : (n :: ns).Nodup := hw ▸ hr.nodup
  have hnot : n ∉ ns := (List.nodup_cons.mp hnd).1
  have hsub : ∀ w ∈ ns, w ∈ s.waiters := fun w hwn => by simp [hw, hwn]
  have hI : ∀ w, Idle ({ s with waiters := ns }.putGoto a (.read n)) w → Idle s w :=
    fun w ⟨hq, hp⟩ => ⟨hsub w hq, hp⟩
  constructor
  case scans =>
    intro b hb
    obtain ⟨hba, hb⟩ := Finset.mem_erase.mp hb
    simpa [hba] using h.scans b hb
  case owed =>
    intro m hm
    rcases Finset.mem_insert.mp hm with rfl | hm
    · exact .inl ⟨a, by simp⟩
    · exact owed_of_other (s := s) rfl rfl (by simp [hpc]) (by simp [hpc]) id id (h.owed m hm)
  case requeued =>
    intro m hm hq
    have hmn : m ≠ n := fun he => hnot (he ▸ hq)
    exact h.requeued m (Finset.mem_of_mem_insert_of_ne hm hmn) (hsub m hq)
  case ahead =>
    intro m hm w hi hq
    have hmn : m ≠ n := fun he => hnot (he ▸ hq)
    have hwn : w ≠ n := fun he => hnot (he ▸ hi.1)
    have := h.ahead m (Finset.mem_of_mem_insert_of_ne hm hmn) w (hI w hi) (hsub m hq)
    rw [hw] at this
    cases this with
    | cons _ hrest => exact hrest
    | cons_cons _ _ => exact absurd rfl hwn
  case count =>
    intro w hi
    have hwn : w ≠ n := fun he => hnot (he ▸ hi.1)
    by_cases hn : n ∈ S
    · -- the record in front is owed already, so no idle getter can be behind it
      have := h.ahead n hn w (hI w hi) (by simp [hw])
      rw [hw] at this
      cases this with
      | cons _ hrest => exact absurd (hrest.subset (by simp)) hnot
      | cons_cons _ _ => exact absurd rfl hwn
    · have hcount := h.count w (hI w hi)
      have hA : A.card ≤ (A.erase a).card + 1 := by
        have := Finset.pred_card_le_card_erase (s := A) (a := a)
        omega
      rw [Finset.card_insert_of_notMem hn]
      simp only [State.putGoto]
      omega

theorem putterStep_ledger (h : Ledger s A S)
    (hr : Registered s) (hok : inWindow s (.putter a) = false)
    (hs : putterStep s a = some t) : ∃ A S, Ledger t A S := by
  -- a put that finds no record drops its claim: nobody is idle then
  have hnone : s.waiters = [] → ∀ q : PutPc, (∀ n, s.put a ≠ .read n) →
      (∀ n, s.put a ≠ .unpark n) → Ledger (s.putGoto a q) (A.erase a) S := by
    intro hw q hrd hup
    constructor
    case scans =>
      intro b hb
      obtain ⟨hba, hb⟩ := Finset.mem_erase.mp hb
      simpa [hba] using h.scans b hb
    case owed =>
      intro m hm
      exact owed_of_other (s := s) rfl rfl (hrd m) (hup m) id id (h.owed m hm)
    case requeued => exact h.requeued
    case ahead => exact h.ahead
    case count =>
      rintro w ⟨hq, -⟩
      simp [hw] at hq
  unfold putterStep at hs
  split at hs
  case h_1 hpc =>
    cases hs
    by_cases hw : s.waiters = []
    · exact ⟨A.erase a, S, hnone hw _ (by simp [hpc]) (by simp [hpc])⟩
    · refine ⟨A, S, h.puts rfl rfl (fun b hb => ?_) (fun _ hm => hm) (fun m _ => ?_) id⟩
      · by_cases hba : b = a
        · simp [hba, hw]
        · simpa [hba] using h.scans b hb
      · exact owed_of_other rfl rfl (by simp [hpc]) (by simp [hpc]) id id
  case h_2 hpc =>
    split at hs
    case h_1 hw =>
      cases hs
      exact ⟨A.erase a, S, hnone hw _ (by simp [hpc]) (by simp [hpc])⟩
    case h_2 n ns hw =>
      cases hs
      exact ⟨A.erase a, insert n S, h.popRecord hr hpc hw⟩
  case h_3 n hpc =>
    have haA : a ∉ A := fun ha => by simpa [hpc] using h.scans a ha
    split at hs
    case isTrue hact =>
      cases hs
      refine ⟨A, S, h.puts rfl rfl (fun b hb => ?_) (fun _ hm => hm) (fun m hm hold => ?_) id⟩
      · have hba : b ≠ a := fun he => haA (he ▸ hb)
        simpa [hba] using h.scans b hb
      · by_cases hmn : m = n
        · -- the getter is not leaving, so the byte will bring it to another pop
          subst hmn
          refine .inr ⟨by simp, ?_⟩
          have hb := hr.book m
          have hwok : Woken ((s.setSeen m true).putGoto a (.unpark m)) m := .inr ⟨a, by simp⟩
          simp only [inWindow, hpc, hact, Bool.true_and] at hok
          unfold Up
          simp only [State.putGoto, State.setSeen] at hwok ⊢
          rw [hact] at hb
          cases hg : s.get m <;> simp_all [Book, GetPc.hunting, GetPc.asleep]
        · exact owed_of_other (s := s) rfl rfl (by simp [hpc, Ne.symm hmn]) (by simp [hpc])
            (by simp [hmn]) id hold
    case isFalse hact =>
      cases hs
      by_cases hn : n ∈ S
      · -- the record was inactive: the put looks for another getter
        refine ⟨insert a A, S.erase n, h.puts rfl rfl (fun b hb => ?_) (Finset.erase_subset _ _)
          (fun m hm hold => ?_) fun hc => ?_⟩
        · by_cases hba : b = a
          · simp [hba]
          · simpa [hba] using h.scans b (Finset.mem_of_mem_insert_of_ne hb hba)
        · have hmn := (Finset.mem_erase.mp hm).1
          exact owed_of_other (s := s) rfl rfl (by simp [hpc, Ne.symm hmn]) (by simp [hpc]) id id
            hold
        · rw [Finset.card_insert_of_notMem haA, Finset.card_erase_of_mem hn]
          have := Finset.card_pos.mpr ⟨n, hn⟩
          simp only [State.putGoto]
          omega
      · refine ⟨A, S, h.puts rfl rfl (fun b hb => ?_) (fun _ hm => hm) (fun m hm hold => ?_) id⟩
        · have hba : b ≠ a := fun he => haA (he ▸ hb)
          simpa [hba] using h.scans b hb
        · have hmn : m ≠ n := fun he => hn (he ▸ hm)
          exact owed_of_other (s := s) rfl rfl (by simp [hpc, Ne.symm hmn]) (by simp [hpc]) id id
            hold
  case h_4 n hpc =>
    have haA : a ∉ A := fun ha => by simpa [hpc] using h.scans a ha
    cases hs
    refine ⟨A, S, h.puts rfl rfl (fun b hb => ?_) (fun _ hm => hm) (fun m hm hold => ?_) id⟩
    · have hba : b ≠ a := fun he => haA (he ▸ hb)
      simpa [hba] using h.scans b hb
    · by_cases hmn : m = n
      · subst hmn
        refine hold.imp (fun ⟨b, hb⟩ => ?_) fun ⟨hsn, hu⟩ => ⟨hsn, ?_⟩
        · have : b ≠ a := fun he => by rw [he, hpc] at hb; cases hb
          exact ⟨b, by simp [this, hb]⟩
        · exact hu.imp_right fun ⟨hp, _⟩ => ⟨hp, .inl (by simp)⟩
      · exact owed_of_other (s := s) rfl rfl (by simp [hpc]) (by simp [hpc, Ne.symm hmn]) id
          (by simp [hmn]) hold
  case h_5 => cases hs

theorem getterStep_ledger (h : Ledger s A S)
    (hr : Registered s) (hs : getterStep s n = some t) : ∃ A S, Ledger t A S := by
  have hb := hr.book n
  -- a queued getter that is owed a wake is just before a pop
  have hnot : n ∈ S → n ∈ s.waiters → (s.get n).rechecks = false → False := by
    intro hn hq hne
    rw [h.requeued n hn hq] at hne
    cases hne
  unfold getterStep at hs
  split at hs
  case h_1 hpc | h_4 hpc | h_5 hpc | h_9 hpc =>
    cases hs
    exact popleft_ledger h fun _ => rfl
  case h_2 hpc | h_13 hpc =>
    rw [hpc] at hb
    cases hs
    refine ⟨A, S, h.move rfl rfl rfl rfl rfl (fun _ _ => rfl) (by simp [GetPc.asleep]) ?_ ?_⟩
    · intro _ _ hu
      simp [Up, hpc, GetPc.hunting, GetPc.asleep] at hu
    · intro _ hq
      exact absurd hq hb.1
  case h_3 hpc =>
    rw [hpc] at hb
    cases hs
    exact ⟨A, S, h.enter hb.1 rfl rfl rfl rfl rfl rfl rfl rfl rfl⟩
  case h_6 hpc =>
    cases hs
    refine ⟨A, S, h.move rfl rfl rfl rfl rfl (fun _ _ => rfl) (by simp [hpc, GetPc.asleep]) ?_ ?_⟩
    · intro _ _ hu
      simpa [Up, Woken, hpc, GetPc.hunting, GetPc.asleep] using hu
    · intro hn hq
      exact (hnot hn hq (by rw [hpc]; rfl)).elim
  case h_7 hpc =>
    split at hs
    case isTrue =>
      cases hs
      refine ⟨A, S, h.move rfl rfl rfl rfl rfl (fun _ _ => rfl) (by simp [hpc, GetPc.asleep]) ?_ ?_⟩
      · intro _ _ hu
        simpa [Up, Woken, hpc, GetPc.hunting, GetPc.asleep] using hu
      · intro hn hq
        exact (hnot hn hq (by rw [hpc]; rfl)).elim
    case isFalse hq =>
      cases hs
      refine ⟨A, S, h.move rfl rfl rfl rfl rfl (fun _ _ => rfl) (by simp [GetPc.asleep]) ?_ ?_⟩
      · intro _ _ _
        exact .inl (by simp [GetPc.hunting])
      · intro _ hq'
        exact absurd hq' hq
  case h_8 hpc =>
    rw [hpc] at hb
    cases hs
    exact ⟨A, S, h.enter hb.1 rfl rfl rfl rfl rfl rfl rfl rfl rfl⟩
  case h_10 hpc =>
    split at hs
    case isTrue =>
      cases hs
      refine ⟨A, S, h.move rfl rfl rfl rfl rfl (fun m hm => by simp [hm])
        (by simp [GetPc.asleep]) ?_ ?_⟩
      · intro _ _ _
        exact .inl (by simp [GetPc.hunting])
      · intro hn hq
        exact (hnot hn hq (by rw [hpc]; rfl)).elim
    case isFalse => cases hs
  case h_11 hpc =>
    cases hs
    refine ⟨A, S, h.move rfl rfl rfl rfl rfl (fun _ _ => rfl) (by simp [GetPc.asleep]) ?_ ?_⟩
    · intro _ _ hu
      simp [Up, hpc, GetPc.hunting, GetPc.asleep] at hu
    · intro hn hq
      exact (hnot hn hq (by rw [hpc]; rfl)).elim
  case h_12 hpc =>
    cases hs
    exact ⟨A, S, h.remove hr hpc⟩
  case h_14 => cases hs

theorem step_ledger {a : Action V} (h : Ledger s A S)
    (hr : Registered s) (hok : inWindow s a = false) (hs : step s a = some t) :
    ∃ A S, Ledger t A S := by
  cases a with
  | get n block fiber timed =>
    simp only [step] at hs
    split at hs
    case h_1 =>
      cases hs
      exact popleft_ledger h fun _ => rfl
    case h_2 => cases hs
  | getter n => exact getterStep_ledger h hr hs
  | expire n =>
    simp only [step] at hs
    have hseen : s.seen n = false := hok
    have hre : n ∈ S → n ∈ s.waiters → (s.get n).rechecks = true := h.requeued n
    split at hs
    case h_1 hpc | h_2 hpc =>
      cases hs
      refine ⟨A, S, h.move rfl rfl rfl rfl rfl (fun _ _ => rfl) (by simp [GetPc.asleep]) ?_ ?_⟩
      · intro _ hs'
        rw [hseen] at hs'
        cases hs'
      · intro hn hq
        simp [hpc, GetPc.rechecks] at hre
        exact absurd hq (hre hn)
    case h_3 => cases hs
  | spurious n =>
    simp only [step] at hs
    split at hs
    case h_1 hpc =>
      cases hs
      refine ⟨A, S, h.move rfl rfl rfl rfl rfl (fun _ _ => rfl) (by simp [GetPc.asleep]) ?_ ?_⟩
      · intro _ _ _
        exact .inl (by simp [GetPc.hunting])
      · intro hn hq
        have := h.requeued n hn hq
        rw [hpc] at this
        cases this
    case h_2 => cases hs
  | put a item =>
    simp only [step] at hs
    split at hs
    case h_1 hpc =>
      cases hs
      have haA : a ∉ A := fun ha => by simpa [hpc] using h.scans a ha
      refine ⟨insert a A, S, h.puts rfl rfl (fun b hb => ?_) (fun _ hm => hm) (fun m _ => ?_)
        fun hc => ?_⟩
      · by_cases hba : b = a
        · simp [hba]
        · simpa [hba] using h.scans b (Finset.mem_of_mem_insert_of_ne hb hba)
      · exact owed_of_other rfl rfl (by simp [hpc]) (by simp [hpc]) id id
      · rw [Finset.card_insert_of_notMem haA]
        simp only [State.putGoto, List.length_append, List.length_singleton]
        omega
    case h_2 => cases hs
  | putter a => exact putterStep_ledger h hr hok hs

theorem reachable_ledger (h : Reachable (spared V) s) : ∃ A S, Ledger s A S := by
  induction h with
  | start hs =>
    cases hs
    exact ⟨∅, ∅, Ledger.restart rfl⟩
  | next hreach hs ih =>
    obtain ⟨A, S, hl⟩ := ih
    obtain ⟨hok, hs⟩ := System.restrict_step.mp hs
    exact step_ledger hl (reachable_registered hreach.of_restrict) hok hs

/-! ## The result -/

/-- In a quiet state no put looks for a getter and no getter is owed a wake. -/
theorem Ledger.quiet (h : Ledger s A S) (hq : Quiet s) :
    A = ∅ ∧ S = ∅ := by
  have hput : ∀ a p, s.put a = p → p.inProgress = false := fun a p hp => hp ▸ hq.1 a
  constructor
  · refine Finset.eq_empty_of_forall_notMem fun a ha => ?_
    rcases h.scans a ha with hp | hp
    · cases hput a _ hp
    · cases hput a _ hp
  · refine Finset.eq_empty_of_forall_notMem fun n hn => ?_
    rcases h.owed n hn with ⟨a, ha⟩ | ⟨-, hu⟩
    · cases hput a _ ha
    · have hprog : (s.get n).inProgress = true := by
        rcases hu with hu | ⟨hu, -⟩
        · cases hg : s.get n <;> simp_all [GetPc.hunting, GetPc.inProgress]
        · cases hg : s.get n <;> simp_all [GetPc.asleep, GetPc.inProgress]
      obtain ⟨⟨timed, hpc⟩, hbyte⟩ := hq.2 n hprog
      rcases hu with hu | ⟨-, hw | ⟨a, ha⟩⟩
      · rw [hpc] at hu
        cases hu
      · rw [hbyte] at hw
        cases hw
      · cases hput a _ ha

/-- **No stranded getter.** In every run in which no put spends its wake on a
getter past its last pop, a quiet state with a getter has no item; in every run
the items leave in order, each to one getter. -/
theorem spared_neverStrands {s : State V} (h : Reachable (spared V) s) :
    NeverStrands s ∧ Conserved s := by
  refine ⟨fun hq n hn => ?_, reachable_kept h.of_restrict⟩
  obtain ⟨A, S, hl⟩ := reachable_ledger h
  obtain ⟨rfl, rfl⟩ := hl.quiet hq
  obtain ⟨⟨timed, hpc⟩, hbyte⟩ := hq.2 n hn
  have hput : ∀ a p, s.put a = p → p.inProgress = false := fun a p hp => hp ▸ hq.1 a
  have hb := (reachable_registered h.of_restrict).book n
  rw [hpc] at hb
  have hqueued : n ∈ s.waiters := by
    rcases hb.2 with hw | ⟨a, ha⟩ | hw | ⟨a, ha⟩
    · exact hw
    · cases hput a _ ha
    · rw [hbyte] at hw
      cases hw
    · cases hput a _ ha
  have hcount := hl.count n ⟨hqueued, by rw [hpc]; rfl⟩
  exact List.length_eq_zero_iff.mp (by simpa using hcount)

/-- A getter parks, a put wakes it, and the getter takes the item. -/
theorem spared_neverStrands_woken :
    ∃ s, Reachable (spared ℕ) s ∧ s.pops = [(0, 7)] ∧ NeverStrands s ∧ Conserved s := by
  have hr : Reachable (spared ℕ) _ :=
    reachable_of_run (spared ℕ)
      [.get 0 true true false, .getter 0, .getter 0, .getter 0, .getter 0, .getter 0, .getter 0,
        .put 0 7, .putter 0, .putter 0, .putter 0, .putter 0, .getter 0, .getter 0] rfl rfl
  exact ⟨_, hr, rfl, spared_neverStrands hr⟩

/-- Getter 1 has taken the first item when the second put reads its flag, still
`True`: the wake is spent on it, and getter 2 stays parked with an item queued. -/
theorem wake_spent_on_leaving_getter :
    ¬∀ s, Reachable (system ℕ) s → NeverStrands s ∧ Conserved s := by
  intro h
  have hr : Reachable (system ℕ) _ :=
    reachable_of_run (system ℕ)
      [.get 1 true true false, .get 2 true true false, .getter 1, .getter 2, .put 1 10, .putter 1,
        .getter 1, .getter 2, .getter 1, .getter 2, .getter 2, .getter 2, .getter 2, .put 2 20, .putter 2, .putter 2,
        .putter 2, .putter 2, .getter 1, .getter 1, .getter 1] rfl rfl
  refine List.cons_ne_nil 20 [] ((h _ hr).1 ⟨fun a => ?_, fun n hn => ?_⟩ 2 rfl)
  · rcases a with _ | _ | _ | a
    all_goals rfl
  · rcases n with _ | _ | _ | n
    case succ.succ.zero => exact ⟨⟨false, rfl⟩, rfl⟩
    all_goals exact absurd hn Bool.false_ne_true

/-! ## The queue as a site of parkers -/

section Site

open Parker

@[grind =]
def GetPc.stage : GetPc V → Stage
  | .fresh | .spin _ | .build _ => .before
  | .returned _ => .after
  | _ => .during

def GetPc.effect (n : ℕ) : GetPc V → Effect ℕ
  | .build _ => .build n true
  | .releasing _ => .release n
  | _ => .quiet

/-- A put is bound to the getter once it has read its flag as `True`. -/
@[grind =]
def PutPc.effect (active : ℕ → Bool) : PutPc → Effect ℕ
  | .read n => if active n then .choose [n] else .quiet
  | .unpark n => .write n
  | _ => .quiet

@[grind =]
def effect (s : State V) : Action V → Effect ℕ
  | .getter n => (s.get n).effect n
  | .putter a => (s.put a).effect s.active
  | _ => .quiet

theorem PutPc.effect_moves (active : ℕ → Bool) (p : PutPc) (m : ℕ) (x : Stage) :
    Moves (p.effect active) m x x := by
  cases p with
  | read n =>
    by_cases ha : active n = true
    · exact .same (by simp [PutPc.effect, ha]) (by simp [PutPc.effect, ha]) x
    · exact .same (by simp [PutPc.effect, ha]) (by simp [PutPc.effect, ha]) x
  | _ => exact .same (by simp [PutPc.effect]) (by simp [PutPc.effect]) x

variable {s t : State V} {n : ℕ}

theorem popleft_get {hit : V → GetPc V} {miss : GetPc V} :
    ∃ p, (p = miss ∨ ∃ x, p = hit x) ∧
      (s.popleft n hit miss).get = fun m => if m = n then p else s.get m := by
  cases hi : s.items with
  | nil => exact ⟨miss, .inl rfl, by rw [popleft_nil hi]; rfl⟩
  | cons x xs => exact ⟨hit x, .inr ⟨x, rfl⟩, by rw [popleft_cons hi]; rfl⟩

/-- A quiet move of the getter `n`. -/
theorem moves_of_get {p : GetPc V}
    (hget : t.get = fun m => if m = n then p else s.get m)
    (hp : p.stage = (s.get n).stage ∨ (s.get n).stage = .before ∧ p.stage = .after) (m : ℕ) :
    Moves .quiet m (s.get m).stage (t.get m).stage := by
  have hmoves : Moves .quiet n (s.get n).stage (t.get n).stage := by
    rw [hget]
    refine .inr (.inr ⟨by simp, by simp, ?_⟩)
    simpa [eq_comm] using hp
  exact Moves.one (x := fun m => (s.get m).stage) (y := fun m => (t.get m).stage) hmoves
    (fun k hk => by simp [hget, hk]) (.inl rfl) m

theorem getterStep_moves (hs : getterStep s n = some t) (m : ℕ) :
    Moves (effect s (.getter n)) m (s.get m).stage (t.get m).stage := by
  unfold getterStep at hs
  split at hs
  case h_1 hpc | h_4 hpc | h_5 hpc | h_9 hpc =>
    cases hs
    obtain ⟨p, hp, hget⟩ := popleft_get
    simp only [effect, hpc, GetPc.effect]
    refine moves_of_get hget ?_ m
    rw [hpc]
    rcases hp with rfl | ⟨x, rfl⟩ <;> simp [GetPc.stage]
  case h_2 hpc =>
    cases hs
    simp only [effect, hpc, GetPc.effect]
    refine Moves.one (n := n) (x := fun m => (s.get m).stage)
      (y := fun m => ((s.goto n (.register _)).get m).stage) (.inl ⟨⟨true, rfl⟩, ?_, ?_⟩)
      (fun k hk => ?_) (.inr (.inl ⟨true, rfl⟩)) m
    · simp [hpc, GetPc.stage]
    · simp [GetPc.stage]
    · simp [hk]
  case h_13 hpc =>
    cases hs
    simp only [effect, hpc, GetPc.effect]
    refine Moves.one (n := n) (x := fun m => (s.get m).stage)
      (y := fun m => ((s.goto n (.returned _)).get m).stage) (.inr (.inl ⟨rfl, ?_, ?_⟩))
      (fun k hk => ?_) (.inr (.inr rfl)) m
    · simp [hpc, GetPc.stage]
    · simp [GetPc.stage]
    · simp [hk]
  case h_3 hpc | h_6 hpc | h_8 hpc | h_11 hpc | h_12 hpc =>
    cases hs
    simp only [effect, hpc, GetPc.effect]
    exact moves_of_get rfl (.inl (by rw [hpc]; rfl)) m
  case h_7 hpc =>
    simp only [effect, hpc, GetPc.effect]
    split at hs
    all_goals
      cases hs
      exact moves_of_get rfl (.inl (by rw [hpc]; rfl)) m
  case h_10 hpc =>
    simp only [effect, hpc, GetPc.effect]
    split at hs
    case isTrue =>
      cases hs
      exact moves_of_get rfl (.inl (by rw [hpc]; rfl)) m
    case isFalse => cases hs
  case h_14 => cases hs

theorem step_moves {a : Action V} (hs : step s a = some t) (m : ℕ) :
    Moves (effect s a) m (s.get m).stage (t.get m).stage := by
  cases a with
  | get n block fiber timed =>
    simp only [step] at hs
    split at hs
    case h_2 => cases hs
    case h_1 hpc =>
      cases hs
      obtain ⟨p, hp, hget⟩ := popleft_get
      refine moves_of_get hget ?_ m
      rw [hpc]
      rcases hp with rfl | ⟨x, rfl⟩
      · repeat' split
        all_goals simp [GetPc.stage]
      · simp [GetPc.stage]
  | getter n => exact getterStep_moves hs m
  | expire n =>
    simp only [step] at hs
    split at hs
    case h_1 hpc | h_2 hpc =>
      cases hs
      exact moves_of_get rfl (by simp [hpc, GetPc.stage]) m
    case h_3 => cases hs
  | spurious n =>
    simp only [step] at hs
    split at hs
    case h_1 hpc =>
      cases hs
      exact moves_of_get rfl (by simp [hpc, GetPc.stage]) m
    case h_2 => cases hs
  | put a item =>
    simp only [step] at hs
    split at hs
    case h_1 =>
      cases hs
      exact .same (by simp [effect]) (by simp [effect]) _
    case h_2 => cases hs
  | putter a =>
    have hget : t.get = s.get := by
      simp only [step, putterStep] at hs
      repeat' split at hs
      all_goals first
        | cases hs; done
        | (cases hs; rfl)
    rw [hget]
    exact PutPc.effect_moves _ _ _ _

/-- Only the read of an active flag leads to a write. -/
theorem putterStep_writing {a : ℕ} (hs : putterStep s a = some t)
    (hw : ∃ b, t.put b = .unpark n) :
    (∃ b, s.put b = .unpark n) ∨ ∃ ps, (s.put a).effect s.active = .choose ps ∧ n ∈ ps := by
  obtain ⟨b, hb⟩ := hw
  -- a put that moves to another program point adds no writer
  have hmove : ∀ q : PutPc, t.put = (fun d => if d = a then q else s.put d) →
      q ≠ .unpark n → ∃ b, s.put b = .unpark n := by
    intro q hput hq
    rw [hput] at hb
    by_cases hba : b = a
    · exact absurd (by simpa [hba] using hb) hq
    · exact ⟨b, by simpa [hba] using hb⟩
  unfold putterStep at hs
  split at hs
  case h_1 =>
    cases hs
    refine .inl (hmove _ rfl ?_)
    split <;> simp
  case h_2 =>
    split at hs
    all_goals
      cases hs
      exact .inl (hmove _ rfl (by simp))
  case h_3 m hpc =>
    split at hs
    case isTrue ha =>
      cases hs
      by_cases hmn : m = n
      · exact .inr ⟨[n], by simp [hpc, PutPc.effect, hmn ▸ ha, hmn], by simp⟩
      · exact .inl (hmove _ rfl (by simp [hmn]))
    case isFalse =>
      cases hs
      exact .inl (hmove _ rfl (by simp))
  case h_4 =>
    cases hs
    exact .inl (hmove _ rfl (by simp))
  case h_5 => cases hs

theorem getterStep_put (hs : getterStep s n = some t) :
    t.put = s.put := by
  have hpop : ∀ hit miss, (s.popleft n hit miss).put = s.put := by
    intro hit miss
    cases hi : s.items with
    | nil => rw [popleft_nil hi]; rfl
    | cons x xs => rw [popleft_cons hi]; rfl
  unfold getterStep at hs
  repeat' split at hs
  all_goals first
    | cases hs; done
    | (cases hs; exact hpop _ _)
    | (cases hs; rfl)

theorem step_writing {a : Action V} (hs : step s a = some t)
    (hw : ∃ b, t.put b = .unpark n) :
    (∃ b, s.put b = .unpark n) ∨ ∃ ps, effect s a = .choose ps ∧ n ∈ ps := by
  cases a with
  | putter a => exact putterStep_writing hs hw
  | getter m =>
    rw [getterStep_put hs] at hw
    exact .inl hw
  | get m block fiber timed =>
    simp only [step] at hs
    split at hs
    case h_2 => cases hs
    case h_1 =>
      cases hs
      refine .inl ?_
      cases hi : s.items with
      | nil => rwa [popleft_nil hi] at hw
      | cons x xs => rwa [popleft_cons hi] at hw
  | put b item =>
    simp only [step] at hs
    split at hs
    case h_2 => cases hs
    case h_1 =>
      cases hs
      obtain ⟨c, hc⟩ := hw
      refine .inl ⟨c, ?_⟩
      by_cases hcb : c = b
      · simp [hcb] at hc
      · simpa [hcb] using hc
  | expire m | spurious m =>
    simp only [step] at hs
    split at hs
    all_goals first
      | cases hs; done
      | (cases hs; exact .inl hw)

/-- The queue with its getters' parkers. -/
def site (V : Type) : Site where
  State := State V
  Action := Action V
  init := init V
  step := step
  effect := effect
  stage s n := (s.get n).stage
  Inv _ := True
  Writing s n := ∃ a, s.put a = .unpark n
  inv_init := trivial
  inv_step _ _ := trivial
  stage_init _ := rfl
  stage_step _ hs m := step_moves hs m
  writing_step hs hw := step_writing hs hw
  writing_write := by
    intro s a t n _ hw
    cases a with
    | putter a =>
      refine ⟨a, ?_⟩
      simp only [effect] at hw
      cases hp : s.put a <;> simp only [hp, PutPc.effect] at hw
      case read m => split at hw <;> cases hw
      case unpark m => cases hw; rfl
      all_goals cases hw
    | getter m =>
      simp only [effect] at hw
      cases hp : s.get m <;> simp only [hp, GetPc.effect] at hw <;> cases hw
    | _ => cases hw

end Site

end Stackweave.Monkey.Queue
