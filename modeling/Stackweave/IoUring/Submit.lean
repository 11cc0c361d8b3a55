import Mathlib
import Stackweave.RingBuffer

/-!
# Submitting one SQE (`io_uring_l_buf.c.inc`, `io_uring_l_ring.c.inc`)

`runloom_iouring_submit_sqe` on the global ring and
`runloom_iouring_ring_submit_sqe` on the hub rings that have no loop backend, down
to the indices of the submission queue: `sq_head` and `sq_tail` are 32-bit counters,
an SQE goes to the slot of the tail, and the kernel takes the one that `sq_array`
names at the head. The two functions differ in one branch: when `io_uring_enter`
fails, the hub ring puts `sq_tail` back and the global ring does not.

The global ring is written under `sub_lock` and a hub ring by its hub alone, so calls
on one ring come one after the other. The drain that a call makes when the queue is
full enters with `to_submit = 0` and leaves the queue as it is.
-/

namespace Stackweave.IoUring.Submit

open RingBuffer Function

variable {T : Type*}

/-- A slot of `sqes`: the template, `user_data`, and the call that wrote it, which is
only told apart here. -/
structure Entry (T : Type*) where
  template : T
  userData : ℕ
  call : ℕ
  deriving DecidableEq

/-- The submission queue of a ring. The kernel rounds the depth up to a power of two. -/
structure Queue (T : Type*) where
  sqHead : BitVec 32
  sqTail : BitVec 32
  sqEntries : BitVec 32
  sqMask : BitVec 32
  sqes : ℕ → Entry T
  sqArray : ℕ → ℕ
  depth : ℕ
  depth_lt : depth < 32
  entries_eq : sqEntries.toNat = 2 ^ depth
  mask_eq : sqMask.toNat = 2 ^ depth - 1

def EINTR : ℕ := 4

/-- What `io_uring_enter` with `to_submit = 1` does: it takes the oldest pending SQE, or
takes nothing and fails. -/
inductive Answer
  | takes
  | fails (errno : ℕ) (h : errno ≠ EINTR)
  deriving DecidableEq

/-- The enters of one call: some are interrupted before they take anything, the last one
is not. -/
structure Enters where
  interrupted : ℕ
  last : Answer

/-- The kernel's side of an enter: the queue after it, the SQE that it took and what it
returned. -/
def Queue.enter (q : Queue T) : Answer → Queue T × Option (Entry T) × ℤ
  | .takes =>
    if q.sqHead = q.sqTail then (q, none, 0)
    else ({ q with sqHead := q.sqHead + 1 },
      some (q.sqes (q.sqArray (q.sqHead &&& q.sqMask).toNat)), 1)
  | .fails _ _ => (q, none, -1)

/-- `sys_io_uring_submit_eintr`. -/
def Queue.submitEintr (q : Queue T) : ℕ → Answer → Queue T × Option (Entry T) × ℤ
  | 0, a => q.enter a
  | k + 1, a => q.submitEintr k a

/-- The stores that put an SQE at `tail`. -/
def Queue.write (q : Queue T) (e : Entry T) : Queue T :=
  let idx := (q.sqTail &&& q.sqMask).toNat
  { q with
    sqes := Function.update q.sqes idx e
    sqArray := Function.update q.sqArray idx idx
    sqTail := q.sqTail + 1 }

inductive RingName
  | global
  | hub (h : ℕ)
  deriving DecidableEq

structure Call (T : Type*) where
  ring : RingName
  template : T
  op : ℕ
  enters : Enters

/-- What a call wrote, which SQE the kernel took during it, what it returned and which
SQEs were pending on its ring then. A call on a full queue does not return. -/
structure Report (T : Type*) where
  written : Entry T
  taken : Option (Entry T)
  ret : Option ℤ
  pending : List (Entry T)

/-- The SQEs between `sq_head` and `sq_tail`, oldest first. -/
def Queue.pending (q : Queue T) : List (Entry T) :=
  window (fun i => q.sqes (q.sqArray i)) (2 ^ q.depth) q.sqHead.toNat
    (q.sqTail - q.sqHead).toNat

def Queue.full (q : Queue T) : Bool := ¬ q.sqTail - q.sqHead < q.sqEntries

/-- `runloom_iouring_submit_sqe`. -/
def Queue.submitSqe (q : Queue T) (e : Entry T) (enters : Enters) : Queue T × Report T :=
  if q.full then (q, ⟨e, none, none, q.pending⟩)
  else
    let (q', taken, n) := (q.write e).submitEintr enters.interrupted enters.last
    if n < 0 then (q', ⟨e, taken, some (-1), q'.pending⟩)
    else (q', ⟨e, taken, some 0, q'.pending⟩)

/-- `runloom_iouring_ring_submit_sqe` on a ring with `loop_wake_fd < 0`. -/
def Queue.ringSubmitSqe (q : Queue T) (e : Entry T) (enters : Enters) : Queue T × Report T :=
  if q.full then (q, ⟨e, none, none, q.pending⟩)
  else
    let (q', taken, n) := (q.write e).submitEintr enters.interrupted enters.last
    if n < 0 then
      let back := { q' with sqTail := q.sqTail }
      (back, ⟨e, taken, some (-1), back.pending⟩)
    else (q', ⟨e, taken, some 0, q'.pending⟩)

def Queue.call (q : Queue T) (n : ℕ) (c : Call T) : Queue T × Report T :=
  match c.ring with
  | .global => q.submitSqe ⟨c.template, c.op, n⟩ c.enters
  | .hub _ => q.ringSubmitSqe ⟨c.template, c.op, n⟩ c.enters

abbrev Rings (T : Type*) := RingName → Queue T

/-- The reports of a sequence of calls, numbered from `n` on. -/
def run (s : Rings T) (n : ℕ) : List (Call T) → List (Report T)
  | [] => []
  | c :: cs =>
    let (q, r) := (s c.ring).call n c
    r :: run (Function.update s c.ring q) (n + 1) cs

/-- Failed submissions leave nothing behind. -/
structure NothingLeft (rs : List (Report T)) : Prop where
  own : ∀ r ∈ rs, ∀ e, r.taken = some e → e = r.written
  clean : ∀ r ∈ rs, r.ret = some (-1) → r.pending = []
  never : ∀ r ∈ rs, r.ret = some (-1) → ∀ r' ∈ rs, r'.taken ≠ some r.written
  done : ∀ r ∈ rs, r.ret = some 0 → r.taken = some r.written

/-! ## The queue as a list -/

namespace Queue

variable (q : Queue T)

/-- The slot of a counter. -/
theorem slot_eq (x : BitVec 32) : (x &&& q.sqMask).toNat = x.toNat % 2 ^ q.depth := by
  rw [BitVec.toNat_and, q.mask_eq, Nat.and_two_pow_sub_one_eq_mod]

theorem depth_le : 2 ^ q.depth ≤ 2 ^ 31 :=
  Nat.pow_le_pow_right (by decide) (Nat.le_of_lt_succ q.depth_lt)

theorem depth_dvd : 2 ^ q.depth ∣ 2 ^ 32 :=
  Nat.pow_dvd_pow 2 (Nat.le_of_lt q.depth_lt)

/-- A counter that has gone `n` on from another falls on the slot `n` further. -/
theorem slot_add (x n : BitVec 32) :
    (x + n).toNat % 2 ^ q.depth = (x.toNat + n.toNat) % 2 ^ q.depth := by
  rw [BitVec.toNat_add, Nat.mod_mod_of_dvd _ q.depth_dvd]

theorem tail_slot :
    q.sqTail.toNat % 2 ^ q.depth =
      (q.sqHead.toNat + (q.sqTail - q.sqHead).toNat) % 2 ^ q.depth := by
  rw [← slot_add, BitVec.add_comm, BitVec.sub_add_cancel]

theorem not_full_iff : q.full = false ↔ (q.sqTail - q.sqHead).toNat < 2 ^ q.depth := by
  simp [full, BitVec.lt_def, q.entries_eq]

/-- No more is pending than fits, and `sq_array` names each pending slot itself. -/
structure Linked : Prop where
  fits : (q.sqTail - q.sqHead).toNat ≤ 2 ^ q.depth
  array : ∀ j < (q.sqTail - q.sqHead).toNat,
    q.sqArray ((q.sqHead.toNat + j) % 2 ^ q.depth) = (q.sqHead.toNat + j) % 2 ^ q.depth

variable {q}

theorem linked_of_empty (h : q.sqHead = q.sqTail) : q.Linked := by
  have hzero : (q.sqTail - q.sqHead).toNat = 0 := by rw [h]; simp
  refine ⟨by rw [hzero]; exact Nat.zero_le _, ?_⟩
  intro j hj
  omega

theorem pending_of_empty (h : q.sqHead = q.sqTail) : q.pending = [] := by
  simp [pending, h]

@[simp] theorem pending_length : q.pending.length = (q.sqTail - q.sqHead).toNat := by
  simp [pending]

theorem write_span (h : (q.sqTail - q.sqHead).toNat < 2 ^ q.depth) (e : Entry T) :
    ((q.write e).sqTail - (q.write e).sqHead).toNat = (q.sqTail - q.sqHead).toNat + 1 := by
  have hle := q.depth_le
  have hcomm : q.sqTail + 1 - q.sqHead = q.sqTail - q.sqHead + 1 := by
    rw [BitVec.sub_eq_add_neg, BitVec.sub_eq_add_neg, BitVec.add_assoc, BitVec.add_comm 1,
      BitVec.add_assoc]
  change (q.sqTail + 1 - q.sqHead).toNat = _
  rw [hcomm, BitVec.toNat_add, Nat.mod_eq_of_lt]
  · rfl
  · change _ + 1 < _
    omega

theorem write_slot :
    (q.sqTail &&& q.sqMask).toNat =
      (q.sqHead.toNat + (q.sqTail - q.sqHead).toNat) % 2 ^ q.depth := by
  rw [q.slot_eq, q.tail_slot]

/-- The slot of the tail is none of those that are pending already. -/
theorem write_other (hfull : q.full = false) (e : Entry T) {j : ℕ}
    (hj : j < (q.sqTail - q.sqHead).toNat) :
    (q.write e).sqArray ((q.sqHead.toNat + j) % 2 ^ q.depth) =
        q.sqArray ((q.sqHead.toNat + j) % 2 ^ q.depth) ∧
      (q.write e).sqes ((q.sqHead.toNat + j) % 2 ^ q.depth) =
        q.sqes ((q.sqHead.toNat + j) % 2 ^ q.depth) := by
  have hlt := q.not_full_iff.mp hfull
  have hne : (q.sqHead.toNat + j) % 2 ^ q.depth ≠ (q.sqTail &&& q.sqMask).toNat := by
    rw [write_slot]
    exact slot_ne _ _ hj (by omega)
  exact ⟨update_of_ne hne _ _, update_of_ne hne _ _⟩

theorem write_own (e : Entry T) :
    (q.write e).sqArray ((q.sqHead.toNat + (q.sqTail - q.sqHead).toNat) % 2 ^ q.depth) =
        (q.sqHead.toNat + (q.sqTail - q.sqHead).toNat) % 2 ^ q.depth ∧
      (q.write e).sqes ((q.sqHead.toNat + (q.sqTail - q.sqHead).toNat) % 2 ^ q.depth) = e := by
  rw [← write_slot]
  exact ⟨update_self _ _ _, update_self _ _ _⟩

/-- Up to the tail that it found, a write leaves the window alone. -/
theorem Linked.write_window (h : q.Linked) (hfull : q.full = false) (e : Entry T) :
    window (fun i => (q.write e).sqes ((q.write e).sqArray i)) (2 ^ q.depth) q.sqHead.toNat
      (q.sqTail - q.sqHead).toNat = q.pending := by
  apply window_congr
  intro j hj
  obtain ⟨harray, hsqes⟩ := write_other hfull e hj
  rw [harray, h.array j hj, hsqes]

theorem Linked.write (h : q.Linked) (hfull : q.full = false) (e : Entry T) :
    (q.write e).Linked ∧ (q.write e).pending = q.pending ++ [e] := by
  have hlt := q.not_full_iff.mp hfull
  have hspan := write_span hlt e
  obtain ⟨harray, hsqes⟩ := write_own (q := q) e
  refine ⟨⟨by rw [hspan]; exact hlt, ?_⟩, ?_⟩
  · intro j hj
    rw [hspan] at hj
    rcases Nat.lt_succ_iff_lt_or_eq.mp hj with hlo | rfl
    · exact (write_other hfull e hlo).1.trans (h.array j hlo)
    · exact harray
  · rw [pending, hspan, window_append]
    congr 1
    · exact h.write_window hfull e
    · change [(q.write e).sqes ((q.write e).sqArray
        ((q.sqHead.toNat + (q.sqTail - q.sqHead).toNat) % 2 ^ q.depth))] = [e]
      rw [harray, hsqes]

/-- The kernel takes the oldest pending SQE. -/
theorem Linked.takes (h : q.Linked) {e : Entry T} {l : List (Entry T)} (hl : q.pending = e :: l) :
    ∃ q', q.enter .takes = (q', some e, 1) ∧ q'.Linked ∧ q'.pending = l := by
  have hlen : (q.sqTail - q.sqHead).toNat = l.length + 1 := by
    rw [← pending_length, hl, List.length_cons]
  have hne : ¬ q.sqHead = q.sqTail := by
    intro heq
    rw [pending_of_empty heq] at hl
    cases hl
  have hspan : (q.sqTail - (q.sqHead + 1)).toNat = l.length := by
    have hsub : q.sqTail - (q.sqHead + 1) = q.sqTail - q.sqHead - 1 := by
      rw [BitVec.sub_eq_add_neg, BitVec.neg_add, BitVec.sub_eq_add_neg, BitVec.sub_eq_add_neg,
        BitVec.sub_eq_add_neg, BitVec.add_assoc]
    have hone : (1 : BitVec 32) ≤ q.sqTail - q.sqHead := by
      rw [BitVec.le_def, hlen]
      exact Nat.le_add_left _ _
    rw [hsub, BitVec.toNat_sub_of_le hone, hlen]
    rfl
  have hmove : (q.sqHead + 1).toNat % 2 ^ q.depth = (q.sqHead.toNat + 1) % 2 ^ q.depth :=
    q.slot_add q.sqHead 1
  rw [pending, hlen, window_cons] at hl
  obtain ⟨hfirst, hrest⟩ := List.cons.inj hl
  refine ⟨{ q with sqHead := q.sqHead + 1 }, ?_, ⟨?_, ?_⟩, ?_⟩
  · rw [enter, if_neg hne, q.slot_eq, hfirst]
  · change (q.sqTail - (q.sqHead + 1)).toNat ≤ 2 ^ q.depth
    have := h.fits
    omega
  · intro j hj
    change j < (q.sqTail - (q.sqHead + 1)).toNat at hj
    change q.sqArray (((q.sqHead + 1).toNat + j) % 2 ^ q.depth) =
      ((q.sqHead + 1).toNat + j) % 2 ^ q.depth
    have hj' := h.array (j + 1) (by omega)
    rwa [Nat.add_mod, hmove, ← Nat.add_mod, Nat.add_assoc, Nat.add_comm 1 j]
  · change window _ (2 ^ q.depth) (q.sqHead + 1).toNat (q.sqTail - (q.sqHead + 1)).toNat = l
    rw [hspan, ← window_mod, hmove, window_mod]
    exact hrest

/-- Putting `sq_tail` back takes the SQE away again. -/
theorem Linked.rollback (h : q.Linked) (hfull : q.full = false) (e : Entry T) :
    ({ q.write e with sqTail := q.sqTail } : Queue T).Linked ∧
      ({ q.write e with sqTail := q.sqTail } : Queue T).pending = q.pending := by
  refine ⟨⟨h.fits, ?_⟩, h.write_window hfull e⟩
  intro j hj
  exact (write_other hfull e hj).1.trans (h.array j hj)

@[simp] theorem submitEintr_eq (k : ℕ) (a : Answer) : q.submitEintr k a = q.enter a := by
  induction k with
  | zero => rfl
  | succ k ih => exact ih

end Queue

/-- A call on a queue with room, over the list of what is pending: `keeps` is whether the
SQE stays when the enter fails. -/
def onList (keeps : Bool) (l : List (Entry T)) (e : Entry T) : Answer → Report T
  | .takes => ⟨e, (l ++ [e]).head?, some 0, (l ++ [e]).tail⟩
  | .fails _ _ =>
    if keeps then ⟨e, none, some (-1), l ++ [e]⟩ else ⟨e, none, some (-1), l⟩

def RingName.keeps : RingName → Bool
  | .global => true
  | .hub _ => false

/-- The code does on the indices what `onList` does on the list. -/
theorem call_onList {q : Queue T} (h : q.Linked) (hfull : q.full = false) (n : ℕ) (c : Call T) :
    ∃ q', q.call n c =
        (q', onList c.ring.keeps q.pending ⟨c.template, c.op, n⟩ c.enters.last) ∧
      q'.Linked ∧
      q'.pending = (onList c.ring.keeps q.pending ⟨c.template, c.op, n⟩ c.enters.last).pending := by
  obtain ⟨ring, template, op, ⟨k, last⟩⟩ := c
  obtain ⟨hwritten, hpending⟩ := h.write hfull ⟨template, op, n⟩
  cases last with
  | takes =>
    obtain ⟨e, l, hcons⟩ : ∃ e l, (q.write ⟨template, op, n⟩).pending = e :: l := by
      rw [hpending]
      exact List.exists_cons_of_ne_nil (by simp)
    obtain ⟨q', henter, hlinked, hrest⟩ := hwritten.takes hcons
    have hlist : q.pending ++ [⟨template, op, n⟩] = e :: l := hpending.symm.trans hcons
    refine ⟨q', ?_, hlinked, ?_⟩
    · cases ring <;>
        simp [Queue.call, Queue.submitSqe, Queue.ringSubmitSqe, hfull, henter, onList, hlist,
          hrest]
    · simp [onList, hlist, hrest]
  | fails errno herr =>
    cases ring with
    | global =>
      refine ⟨q.write ⟨template, op, n⟩, ?_, hwritten, ?_⟩
      · simp [Queue.call, Queue.submitSqe, hfull, Queue.enter, onList, RingName.keeps, hpending]
      · simp [onList, RingName.keeps, hpending]
    | hub i =>
      obtain ⟨hback, hsame⟩ := h.rollback hfull ⟨template, op, n⟩
      refine ⟨_, ?_, hback, ?_⟩
      · simp [Queue.call, Queue.ringSubmitSqe, hfull, Queue.enter, onList, RingName.keeps, hsame]
      · simp [onList, RingName.keeps, hsame]

/-! ## Sequences of calls -/

theorem Queue.not_full_of_empty {q : Queue T} (h : q.pending = []) : q.full = false := by
  rw [Queue.not_full_iff, ← Queue.pending_length, h]
  exact Nat.two_pow_pos q.depth

/-- No ring has an SQE pending. -/
def Empty (s : Rings T) : Prop := ∀ r, (s r).Linked ∧ (s r).pending = []

theorem Queue.call_written (q : Queue T) (n : ℕ) (c : Call T) :
    (q.call n c).2.written = ⟨c.template, c.op, n⟩ := by
  unfold Queue.call Queue.submitSqe Queue.ringSubmitSqe
  cases c.ring <;> dsimp only <;> split
  · rfl
  · split <;> rfl
  · rfl
  · split <;> rfl

/-- Reports carry the numbers of their calls. -/
theorem run_call (s : Rings T) (n : ℕ) (cs : List (Call T)) :
    (run s n cs).map (fun r => r.written.call) = List.range' n cs.length := by
  induction cs generalizing s n with
  | nil => rfl
  | cons c cs ih =>
    simp only [run, List.map_cons, List.length_cons, List.range'_succ, ih,
      Queue.call_written]

theorem run_written_inj {s : Rings T} {n : ℕ} {cs : List (Call T)} {r r' : Report T}
    (hr : r ∈ run s n cs) (hr' : r' ∈ run s n cs) (h : r.written = r'.written) : r = r' := by
  have hnodup : ((run s n cs).map (fun r => r.written.call)).Nodup := by
    rw [run_call]
    exact List.nodup_range'
  exact List.inj_on_of_nodup_map hnodup hr hr' (congrArg Entry.call h)

/-- A call that took its own SQE or left nothing. -/
def Report.Clean (r : Report T) : Prop :=
  r.pending = [] ∧
    (r.taken = some r.written ∧ r.ret = some 0 ∨ r.taken = none ∧ r.ret = some (-1))

theorem onList_clean {c : Call T} (e : Entry T)
    (h : c.ring = .global → c.enters.last = .takes) :
    (onList c.ring.keeps [] e c.enters.last).Clean := by
  cases hlast : c.enters.last with
  | takes => exact ⟨rfl, Or.inl ⟨rfl, rfl⟩⟩
  | fails errno herr =>
    cases hring : c.ring with
    | global =>
      have := h hring
      rw [hlast] at this
      cases this
    | hub i => exact ⟨rfl, Or.inr ⟨rfl, rfl⟩⟩

/-- A call that finds nothing pending, as `onList` has it, and the rings after it. -/
theorem Empty.call {s : Rings T} (h : Empty s) (n : ℕ) (c : Call T) :
    ((s c.ring).call n c).2 = onList c.ring.keeps [] ⟨c.template, c.op, n⟩ c.enters.last ∧
      (((s c.ring).call n c).2.pending = [] →
        Empty (update s c.ring ((s c.ring).call n c).1)) := by
  obtain ⟨hlinked, hpending⟩ := h c.ring
  obtain ⟨q', hcall, hlinked', hpending'⟩ :=
    call_onList hlinked (Queue.not_full_of_empty hpending) n c
  rw [hpending] at hcall hpending'
  rw [hcall]
  refine ⟨rfl, ?_⟩
  intro hclean r
  by_cases hr : r = c.ring
  · subst hr
    rw [update_self]
    exact ⟨hlinked', hpending'.trans hclean⟩
  · rw [update_of_ne hr]
    exact h r

theorem run_clean {s : Rings T} (hs : Empty s) (n : ℕ) {cs : List (Call T)}
    (h : ∀ c ∈ cs, c.ring = .global → c.enters.last = .takes) :
    ∀ r ∈ run s n cs, r.Clean := by
  induction cs generalizing s n with
  | nil => intro r hr; cases hr
  | cons c cs ih =>
    obtain ⟨hreport, hempty⟩ := hs.call n c
    have hclean : ((s c.ring).call n c).2.Clean := by
      rw [hreport]
      exact onList_clean _ (h c List.mem_cons_self)
    intro r hr
    rcases List.mem_cons.mp hr with rfl | hr
    · exact hclean
    · exact ih (hempty hclean.1) (n + 1) (fun c hc => h c (List.mem_cons_of_mem _ hc)) r hr

/-- The first call on the global ring whose enter fails leaves its SQE pending. -/
theorem takes_of_clean {s : Rings T} (hs : Empty s) (n : ℕ) {cs : List (Call T)}
    (h : ∀ r ∈ run s n cs, r.ret = some (-1) → r.pending = []) :
    ∀ c ∈ cs, c.ring = .global → c.enters.last = .takes := by
  induction cs generalizing s n with
  | nil => intro c hc; cases hc
  | cons c cs ih =>
    obtain ⟨hreport, hempty⟩ := hs.call n c
    have hfirst : c.ring = .global → c.enters.last = .takes := by
      intro hring
      cases hlast : c.enters.last with
      | takes => rfl
      | fails errno herr =>
        rw [hring, hlast] at hreport
        have hleft := h ((s c.ring).call n c).2 List.mem_cons_self
        rw [hring, hreport] at hleft
        cases hleft rfl
    have hclean : ((s c.ring).call n c).2.Clean := by
      rw [hreport]
      exact onList_clean _ hfirst
    intro d hd
    rcases List.mem_cons.mp hd with rfl | hd
    · exact hfirst
    · exact ih (hempty hclean.1) (n + 1) (fun r hr => h r (List.mem_cons_of_mem _ hr)) d hd

/-- Whatever the order of the calls on the rings and of the failures: nothing is left
behind exactly if no enter on the global ring fails. The hub rings never leave anything. -/
theorem failed_submissions_leave_nothing_iff (s : Rings T)
    (hs : ∀ r, (s r).sqHead = (s r).sqTail) (n : ℕ) (cs : List (Call T)) :
    NothingLeft (run s n cs) ↔
      ∀ c ∈ cs, c.ring = .global → c.enters.last = .takes := by
  have hempty : Empty s :=
    fun r => ⟨Queue.linked_of_empty (hs r), Queue.pending_of_empty (hs r)⟩
  refine ⟨fun h => takes_of_clean hempty n h.clean, ?_⟩
  intro h
  have hclean := run_clean hempty n h
  have hown : ∀ r ∈ run s n cs, ∀ e, r.taken = some e → e = r.written ∧ r.ret = some 0 := by
    intro r hr e he
    rcases (hclean r hr).2 with ⟨htaken, hret⟩ | ⟨hnone, -⟩
    · exact ⟨Option.some.inj (he.symm.trans htaken), hret⟩
    · rw [hnone] at he
      cases he
  refine ⟨fun r hr e he => (hown r hr e he).1, fun r hr _ => (hclean r hr).1, ?_, ?_⟩
  · intro r hr hfail r' hr' htaken
    obtain ⟨hwritten, hret⟩ := hown r' hr' _ htaken
    rw [run_written_inj hr hr' hwritten, hret] at hfail
    cases hfail
  · intro r hr hret
    rcases (hclean r hr).2 with ⟨htaken, -⟩ | ⟨-, hfail⟩
    · exact htaken
    · rw [hfail] at hret
      cases hret

/-- A queue of two slots at the wrap of its counters. -/
def twoSlots : Queue ℕ where
  sqHead := 0xffffffff#32
  sqTail := 0xffffffff#32
  sqEntries := 2#32
  sqMask := 1#32
  sqes := fun _ => ⟨0, 0, 0⟩
  sqArray := fun _ => 0
  depth := 1
  depth_lt := by decide
  entries_eq := rfl
  mask_eq := rfl

def refused : Enters := ⟨1, .fails 11 (by decide)⟩

def accepted : Enters := ⟨0, .takes⟩

/-- Failures on two hub rings among submissions on all rings. -/
def hubFailures : List (Call ℕ) :=
  [⟨.global, 7, 1, accepted⟩, ⟨.hub 0, 8, 2, refused⟩, ⟨.hub 0, 9, 3, accepted⟩,
    ⟨.hub 1, 8, 4, refused⟩, ⟨.global, 7, 5, accepted⟩]

theorem hubFailures_leave_nothing : NothingLeft (run (fun _ => twoSlots) 0 hubFailures) :=
  (failed_submissions_leave_nothing_iff (fun _ => twoSlots) (fun _ => rfl) 0 hubFailures).mpr
    (by decide)

/-- A receive is refused on the global ring, and the next submission makes the kernel
execute it in its own place. -/
theorem global_failure_shifts :
    ¬ NothingLeft (run (fun _ => twoSlots) 0
      [⟨.global, 7, 1, refused⟩, ⟨.global, 8, 2, accepted⟩]) := by
  intro h
  have hstale := h.own ⟨⟨8, 2, 1⟩, some ⟨7, 1, 0⟩, some 0, [⟨8, 2, 1⟩]⟩
    (List.mem_cons_of_mem _ List.mem_cons_self) ⟨7, 1, 0⟩ rfl
  exact absurd hstale (by decide)

end Stackweave.IoUring.Submit
