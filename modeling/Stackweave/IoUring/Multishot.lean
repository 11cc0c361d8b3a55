import Mathlib
import Stackweave.Transition

/-!
# Multishot receive on the global ring (`io_uring_l_do.c.inc`)

One multishot handle: any number of fibers in `runloom_iouring_ms_recv`, any number
of threads in `runloom_iouring_drain`, signals and other wakes of the fibers, and
one `runloom_iouring_ms_close`. The kernel writes the data of a completion into a
buffer of the pool that it has, and posts the completions in the order of the
stream.

What is done under the lock of the handle is one step. Outside of it, a drain
walks the list of waiters that it has detached: the nodes are on the stacks of the
`ms_recv` calls, and the node of a fiber is the same memory in each of its calls.
A call enters before the close begins: its caller holds the critical section of the
connection until the call is parked. The byte type is arbitrary.
-/

namespace Stackweave.IoUring.Multishot

open Transition Function

/-- `ms_entry_t`. -/
structure Entry where
  bid : ℕ
  len : ℕ

/-- The buffer that is partially consumed. -/
structure Inflight where
  bid : ℕ
  off : ℕ
  len : ℕ
  deriving DecidableEq

/-- A completion: with a buffer when `res > 0`, and `more` unless it is terminal. -/
inductive Cqe
  | data (bid len : ℕ) (more : Bool)
  | other (res : ℤ) (more : Bool)
  deriving DecidableEq

def Cqe.more : Cqe → Bool
  | .data _ _ more | .other _ more => more

/-- `struct runloom_iouring_ms`; the waiters are named by their fibers. -/
structure Handle where
  closing : Bool
  err : ℤ
  eof : Bool
  armed : Bool
  ready : List Entry
  inflight : Option Inflight
  waiters : List ℕ
  refcount : ℕ

/-- The provided buffers: their contents and the ids that the kernel has given out.
History: the data posted, the bytes copied out, the ids posted and returned. -/
structure Pool (α : Type) where
  mem : ℕ → List α
  lent : List ℕ
  stream : List (List α)
  copied : List α
  posted : List ℕ
  returned : List ℕ

/-- What an `ms_recv` for `n` bytes does next. -/
inductive Pc
  | idle
  | link (n : ℕ)
  | park (n : ℕ)
  | asleep (n : ℕ)
  | unlink (n : ℕ)
  | relock (n : ℕ)
  | free (r : ℤ)
  | returned (r : ℤ)
  deriving DecidableEq

/-- What a thread in `runloom_iouring_drain` does next. `node` is about to read the node
at a link of the detached list; the flag says that the live reference is to be dropped. -/
inductive Drain
  | idle
  | exchange
  | walk
  | process (c : Cqe)
  | node (at_ : Option ℕ) (last : Bool)
  | wake (f : ℕ) (next : Option ℕ) (last : Bool)
  | put
  | free
  | clear
  | recheck
  | retry
  deriving DecidableEq

/-- What `ms_close` does next; `free true` has a reference left to drop. -/
inductive Closer
  | idle
  | cancel
  | putLast
  | putBoth
  | putLive
  | free (more : Bool)
  | returned
  deriving DecidableEq

/-- `onList` and `nxt` are the fields of the nodes, `sqe` says that the kernel has the
multishot, and `cq` is the completion queue. History: how often the handle was freed,
whether it was used after that, and the nodes that a drain has detached and not read. -/
structure State (α : Type) where
  h : Handle
  pool : Pool α
  pc : ℕ → Pc
  onList : ℕ → Bool
  nxt : ℕ → Option ℕ
  signaled : ℕ → Bool
  woken : ℕ → Bool
  drain : ℕ → Drain
  draining : Bool
  closer : Closer
  sqe : Bool
  cq : List Cqe
  freed : ℕ
  uaf : Bool
  detached : List ℕ

variable {α : Type}

/-- After `runloom_iouring_ms_open`. -/
def init : State α :=
  { h := ⟨false, 0, false, true, [], none, [], 1⟩
    pool := ⟨fun _ => [], [], [], [], [], []⟩
    pc := fun _ => .idle, onList := fun _ => false, nxt := fun _ => none
    signaled := fun _ => false, woken := fun _ => false, drain := fun _ => .idle
    draining := false, closer := .idle, sqe := true, cq := [], freed := 0, uaf := false
    detached := [] }

/-! ## Copying out -/

/-- What a locked copy takes: the bytes, the buffers returned, and what is left. -/
structure Copy (α : Type) where
  out : List α
  back : List ℕ
  inflight : Option Inflight
  ready : List Entry

/-- The loop over the buffers, from the one in flight. -/
def copy (mem : ℕ → List α) : ℕ → Inflight → List Entry → Copy α
  | want, i, ready =>
    let n := min (i.len - i.off) want
    let out := ((mem i.bid).drop i.off).take n
    if i.off + n < i.len then ⟨out, [], some { i with off := i.off + n }, ready⟩
    else if want ≤ n then ⟨out, [i.bid], none, ready⟩
    else
      match ready with
      | [] => ⟨out, [i.bid], none, []⟩
      | e :: rest =>
        let c := copy mem (want - n) ⟨e.bid, 0, e.len⟩ rest
        { c with out := out ++ c.out, back := i.bid :: c.back }

def fetch (mem : ℕ → List α) (want : ℕ) : Option Inflight → List Entry → Copy α
  | some i, ready => copy mem want i ready
  | none, e :: rest => copy mem want ⟨e.bid, 0, e.len⟩ rest
  | none, [] => ⟨[], [], none, []⟩

/-- `runloom_iouring_pbuf_return`. -/
def Pool.giveBack (b : Pool α) (bids : List ℕ) : Pool α :=
  { b with
    lent := b.lent.filter fun x => !(bids.contains x)
    returned := b.returned ++ bids }

def State.copyOut (s : State α) (c : Copy α) : State α :=
  { s with
    h := { s.h with inflight := c.inflight, ready := c.ready }
    pool := { s.pool.giveBack c.back with copied := s.pool.copied ++ c.out } }

/-! ## The nodes -/

/-- The link to `f` is set to the successor of `f`, when `f` is not the first. -/
def relink (nxt : ℕ → Option ℕ) (f : ℕ) : List ℕ → ℕ → Option ℕ
  | a :: b :: l =>
    if a = f then nxt else if b = f then Function.update nxt a (nxt f) else relink nxt f (b :: l)
  | _ => nxt

/-- Any access to the handle. -/
def State.use (s : State α) : State α :=
  { s with uaf := s.uaf || decide (0 < s.freed) }

/-- The end of `ms_recv`, under the lock: the node is unlinked and the reference dropped. -/
def State.done (s : State α) (f : ℕ) (r : ℤ) : State α :=
  let t : State α :=
    if s.onList f then
      { s with
        h := { s.h with waiters := s.h.waiters.erase f }
        nxt := relink s.nxt f s.h.waiters
        onList := Function.update s.onList f false }
    else s
  { t with
    h := { t.h with refcount := t.h.refcount - 1 }
    pc := Function.update t.pc f (if t.h.refcount = 1 then .free r else .returned r) }

/-- The call links its node, unless it is linked, and lets go of the lock. -/
def State.sleep (s : State α) (f n : ℕ) : State α :=
  let t : State α :=
    if s.onList f then s
    else
      { s with
        h := { s.h with waiters := f :: s.h.waiters }
        nxt := Function.update s.nxt f s.h.waiters.head?
        onList := Function.update s.onList f true }
  { t with pc := Function.update t.pc f (.link n) }

/-- `runloom_iouring_ms_submit`. -/
def State.arm (s : State α) : State α :=
  { s with h := { s.h with armed := true }, sqe := true }

/-- The loop of `ms_recv`, from the top to the park or to the end. -/
def State.serve (s : State α) (f n : ℕ) : State α :=
  let c := fetch s.pool.mem n s.h.inflight s.h.ready
  let t := s.copyOut c
  if c.out.isEmpty = false then t.done f c.out.length
  else if t.h.err ≠ 0 then t.done f (-1)
  else if t.h.eof then t.done f 0
  else if t.h.closing then t.done f 0
  else if t.h.armed then t.sleep f n
  else t.arm.sleep f n

/-- The start of `ms_recv`. -/
def State.pin (s : State α) (f n : ℕ) : State α :=
  { s with
    h := { s.h with refcount := s.h.refcount + 1 }
    onList := Function.update s.onList f false
    nxt := Function.update s.nxt f none
    signaled := Function.update s.signaled f false
    pc := Function.update s.pc f (.relock n) }

/-- `runloom_iouring_ms_free`. -/
def State.release (s : State α) : State α :=
  { s with
    h := { s.h with ready := [], inflight := none }
    pool := s.pool.giveBack (s.h.ready.map Entry.bid ++ (s.h.inflight.map Inflight.bid).toList)
    freed := s.freed + 1 }

/-! ## The steps -/

inductive Action (α : Type)
  | enter (f n : ℕ)
  | recv (f : ℕ)
  | resume (f : ℕ)
  | signal (f : ℕ)
  | wake (f : ℕ)
  | start (d : ℕ)
  | drain (d : ℕ)
  | close
  | data (bid : ℕ) (bytes : List α) (more : Bool)
  | other (res : ℤ) (more : Bool)

def State.goto (s : State α) (f : ℕ) (q : Pc) : State α :=
  { s with pc := Function.update s.pc f q }

def State.act (s : State α) (d : ℕ) (q : Drain) : State α :=
  { s with drain := Function.update s.drain d q }

/-- The rest of `ms_recv`, after the lock is let go. -/
def recvStep (s : State α) (f : ℕ) : Option (State α) :=
  match s.pc f with
  | .link n => some { s.goto f (.park n) with signaled := Function.update s.signaled f false }
  | .park n => some (s.goto f (.asleep n))
  | .unlink n => some (s.goto f (.relock n))
  | .relock n => some (if s.signaled f then s.use.done f (-1) else s.use.serve f n)
  | .free r => some (s.use.release.goto f (.returned r))
  | _ => none

/-- What `runloom_iouring_ms_on_cqe` does to the handle, apart from the waiters. -/
def Handle.onCqe (h : Handle) : Cqe → Handle
  | .data bid len more =>
    { h with ready := h.ready ++ [⟨bid, len % 2 ^ 16⟩], armed := h.armed && more }
  | .other res more =>
    { h with
      eof := h.eof || (res == 0 && !more)
      err := if res < 0 ∧ res ≠ -105 ∧ res ≠ -125 then -res else h.err
      armed := h.armed && more }

/-- The locked part of `runloom_iouring_ms_on_cqe`: all waiters are detached. -/
def State.onCqe (s : State α) (d : ℕ) (c : Cqe) : State α :=
  { s with
    h := { s.h.onCqe c with waiters := [] }
    onList := fun f => s.onList f && !(s.h.waiters.contains f)
    detached := s.h.waiters
    drain := Function.update s.drain d (.node s.h.waiters.head? (s.h.closing && !c.more)) }

def State.put (s : State α) : State α :=
  { s with h := { s.h with refcount := s.h.refcount - 1 } }

/-- The statements of `runloom_iouring_drain` and of the rest of `ms_on_cqe`. -/
def drainStep (s : State α) (d : ℕ) : Option (State α) :=
  match s.drain d with
  | .idle => none
  | .exchange | .retry =>
    some (if s.draining then s.act d .idle else { s.act d .walk with draining := true })
  | .walk =>
    match s.cq with
    | [] => some (s.act d .clear)
    | c :: rest => some { s.use.act d (.process c) with cq := rest }
  | .process c => some (s.use.onCqe d c)
  | .node none last => some (s.act d (if last then .put else .walk))
  | .node (some f) last =>
    some { s.act d (.wake f (s.nxt f) last) with detached := s.detached.tail }
  | .wake f next last =>
    some { s.act d (.node next last) with woken := Function.update s.woken f true }
  | .put => some (s.use.put.act d (if s.h.refcount = 1 then .free else .walk))
  | .free => some (s.use.release.act d .walk)
  | .clear => some { s.act d .recheck with draining := false }
  | .recheck => some (s.act d (if s.cq.isEmpty then .idle else .retry))

/-- The statements of `runloom_iouring_ms_close`. -/
def closeStep (s : State α) : Option (State α) :=
  match s.closer with
  | .idle =>
    some { s.use with
      h := { s.h with refcount := s.h.refcount + 1, closing := true }
      closer := if s.h.armed then .cancel else .putBoth }
  | .cancel => some { s with closer := .putLast }
  | .putLast | .putLive =>
    some { s.use.put with closer := if s.h.refcount = 1 then .free false else .returned }
  | .putBoth =>
    some { s.use.put with closer := if s.h.refcount = 1 then .free true else .putLive }
  | .free more =>
    some { s.use.release with closer := if more then .putLive else .returned }
  | .returned => none

/-- The call is not running. -/
def Pc.rests : Pc → Bool
  | .idle | .returned _ => true
  | _ => false

/-- The signal waiter of the call is on the list. -/
def Pc.listens : Pc → Bool
  | .park _ | .asleep _ | .unlink _ => true
  | _ => false

@[grind =]
def step (s : State α) : Action α → Option (State α)
  | .enter f n =>
    if (s.pc f).rests ∧ s.closer = .idle ∧ 0 < n then some ((s.use.pin f n).serve f n) else none
  | .recv f => recvStep s f
  | .resume f =>
    match s.pc f with
    | .asleep n =>
      if s.woken f then some { s.goto f (.unlink n) with woken := Function.update s.woken f false }
      else none
    | _ => none
  | .signal f =>
    if (s.pc f).listens then some { s with signaled := Function.update s.signaled f true }
    else none
  | .wake f => some { s with woken := Function.update s.woken f true }
  | .start d => if s.drain d = .idle then some (s.act d .exchange) else none
  | .drain d => drainStep s d
  | .close => closeStep s
  | .data bid bytes more =>
    if s.sqe ∧ bid ∉ s.pool.lent ∧ 0 < bytes.length ∧ bytes.length ≤ 2048 then
      some { s with
        pool :=
          { s.pool with
            mem := Function.update s.pool.mem bid bytes
            lent := bid :: s.pool.lent
            stream := s.pool.stream ++ [bytes]
            posted := s.pool.posted ++ [bid] }
        cq := s.cq ++ [.data bid bytes.length more]
        sqe := more }
    else none
  | .other res more =>
    if s.sqe ∧ res ≤ 0 then some { s with cq := s.cq ++ [Cqe.other res more], sqe := more } else none

def system (α : Type) : System (State α) (Action α) where
  init s := s = init
  step := step

/-- A call goes back to the handle while a drain has its node and has not read it. -/
def torn (s : State α) : Action α → Bool
  | .recv f =>
    match s.pc f with
    | .relock _ => s.detached.contains f
    | _ => false
  | _ => false

/-- The runs in which a drain finds the nodes that it has detached as it left them. -/
def intact (α : Type) : System (State α) (Action α) :=
  (system α).restrict fun s a => torn s a = false

/-! ## The buffers -/

def Cqe.bid : Cqe → Option ℕ
  | .data bid _ _ => some bid
  | .other _ _ => none

/-- The bytes left in a buffer in flight. -/
def Inflight.rest (mem : ℕ → List α) (i : Inflight) : List α := (mem i.bid).drop i.off

/-- The ids of the buffers in the handle, in the order of the stream. -/
def bids (inflight : Option Inflight) (ready : List Entry) : List ℕ :=
  (inflight.map Inflight.bid).toList ++ ready.map Entry.bid

/-- The bytes in the handle. -/
def bytes (mem : ℕ → List α) (inflight : Option Inflight) (ready : List Entry) : List α :=
  (inflight.map (Inflight.rest mem)).getD [] ++ (ready.map fun e => mem e.bid).flatten

/-- The lengths in the handle are those of the contents. -/
def Measured (mem : ℕ → List α) (inflight : Option Inflight) (ready : List Entry) : Prop :=
  (∀ i, inflight = some i → (mem i.bid).length = i.len ∧ i.off < i.len) ∧
    ∀ e ∈ ready, (mem e.bid).length = e.len ∧ 0 < e.len

/-- What a copy leaves behind, with what it took, is what was there. -/
def Copy.Splits (mem : ℕ → List α) (c : Copy α) (inflight : Option Inflight)
    (ready : List Entry) : Prop :=
  c.out ++ bytes mem c.inflight c.ready = bytes mem inflight ready ∧
    c.back ++ bids c.inflight c.ready = bids inflight ready ∧ Measured mem c.inflight c.ready

variable {mem : ℕ → List α} {i : Inflight} {ready : List Entry} {n f d : ℕ}
  {inflight : Option Inflight} {b : Pool α} {l : List ℕ} {p : List Cqe} {nxt : ℕ → Option ℕ}
  {s : State α}

/-- The buffer in flight is not emptied. -/
theorem splits_part
    (hm : Measured mem (some i) ready) (hn : i.off + n < i.len) :
    Copy.Splits mem ⟨((mem i.bid).drop i.off).take n, [], some { i with off := i.off + n }, ready⟩
      (some i) ready := by
  refine ⟨?_, rfl, ?_, hm.2⟩
  · have hsplit : ((mem i.bid).drop i.off).take n ++ (mem i.bid).drop (i.off + n) =
        (mem i.bid).drop i.off := by
      rw [← List.drop_drop]
      exact List.take_append_drop n _
    simp only [bytes, Inflight.rest, Option.map_some, Option.getD_some]
    rw [← List.append_assoc, hsplit]
  · rintro j ⟨⟩
    exact ⟨(hm.1 i rfl).1, hn⟩

/-- The buffer in flight is emptied. -/
theorem take_rest
    (hm : Measured mem (some i) ready) (hn : ¬ i.off + n < i.len) :
    ((mem i.bid).drop i.off).take n = i.rest mem := by
  apply List.take_of_length_le
  rw [List.length_drop, (hm.1 i rfl).1]
  omega

theorem splits_all {out : List α}
    (hm : Measured mem (some i) ready) (hout : out = i.rest mem) :
    Copy.Splits mem ⟨out, [i.bid], none, ready⟩ (some i) ready := by
  refine ⟨?_, rfl, by rintro _ ⟨⟩, hm.2⟩
  rw [hout]
  rfl

/-- The next buffer is taken up. -/
theorem Copy.Splits.cons {c : Copy α} {e : Entry}
    {rest : List Entry} {out : List α} (h : c.Splits mem (some ⟨e.bid, 0, e.len⟩) rest)
    (hout : out = i.rest mem) :
    Copy.Splits mem { c with out := out ++ c.out, back := i.bid :: c.back } (some i)
      (e :: rest) := by
  obtain ⟨hbytes, hbids, hm⟩ := h
  refine ⟨?_, ?_, hm⟩
  · rw [hout, List.append_assoc, hbytes]
    simp [bytes, Inflight.rest]
  · rw [List.cons_append, hbids]
    rfl

theorem measured_next {e : Entry}
    {rest : List Entry} (hm : Measured mem inflight (e :: rest)) :
    Measured mem (some ⟨e.bid, 0, e.len⟩) rest := by
  refine ⟨?_, fun x hx => hm.2 x (List.mem_cons_of_mem _ hx)⟩
  rintro j ⟨⟩
  exact hm.2 e List.mem_cons_self

/-- A locked copy takes the bytes from the front and returns the buffers that it
has emptied. -/
theorem copy_splits (mem : ℕ → List α) (ready : List Entry) :
    ∀ (want : ℕ) (i : Inflight), Measured mem (some i) ready →
      (copy mem want i ready).Splits mem (some i) ready := by
  induction ready with
  | nil =>
    intro want i hm
    unfold copy
    dsimp only
    split
    case isTrue hlt => exact splits_part hm hlt
    case isFalse hlt =>
      split
      · exact splits_all hm (take_rest hm hlt)
      · exact splits_all hm (take_rest hm hlt)
  | cons e rest ih =>
    intro want i hm
    unfold copy
    dsimp only
    split
    case isTrue hlt => exact splits_part hm hlt
    case isFalse hlt =>
      split
      · exact splits_all hm (take_rest hm hlt)
      · exact (ih _ _ (measured_next hm)).cons (take_rest hm hlt)

theorem fetch_splits {mem : ℕ → List α} {want : ℕ} {inflight : Option Inflight}
    {ready : List Entry} (hm : Measured mem inflight ready) :
    (fetch mem want inflight ready).Splits mem inflight ready := by
  cases inflight with
  | some i => exact copy_splits mem ready want i hm
  | none =>
    cases ready with
    | nil => exact ⟨rfl, rfl, by rintro _ ⟨⟩, by rintro _ ⟨⟩⟩
    | cons e rest =>
      obtain ⟨hbytes, hbids, hm'⟩ := copy_splits mem rest want ⟨e.bid, 0, e.len⟩ (measured_next hm)
      refine ⟨?_, hbids, hm'⟩
      rw [fetch, hbytes]
      simp [bytes, Inflight.rest]

/-- A copy that yields nothing has found nothing. -/
theorem copy_out_ne_nil {want : ℕ}
    (hm : Measured mem (some i) ready) (hw : 0 < want) : (copy mem want i ready).out ≠ [] := by
  obtain ⟨hlen, hoff⟩ := hm.1 i rfl
  have hne : ((mem i.bid).drop i.off).take (min (i.len - i.off) want) ≠ [] := by
    rw [← List.length_pos_iff, List.length_take, List.length_drop, hlen]
    omega
  unfold copy
  dsimp only
  split
  · exact hne
  · split
    · exact hne
    · cases ready with
      | nil => exact hne
      | cons e rest => exact List.append_ne_nil_of_left_ne_nil hne _

theorem fetch_out_nil {want : ℕ}
    (hm : Measured mem inflight ready) (hw : 0 < want)
    (hout : (fetch mem want inflight ready).out = []) : inflight = none ∧ ready = [] := by
  cases inflight with
  | some i => exact absurd hout (copy_out_ne_nil hm hw)
  | none =>
    cases ready with
    | nil => exact ⟨rfl, rfl⟩
    | cons e rest => exact absurd hout (copy_out_ne_nil (measured_next hm) hw)

/-- The ids of the buffers that are not returned: in the handle and in the pending
completions. -/
def kept (inflight : Option Inflight) (ready : List Entry) (p : List Cqe) : List ℕ :=
  bids inflight ready ++ p.filterMap Cqe.bid

/-- The bytes that are not copied out. -/
def unread (mem : ℕ → List α) (inflight : Option Inflight) (ready : List Entry)
    (p : List Cqe) : List α :=
  bytes mem inflight ready ++ ((p.filterMap Cqe.bid).map mem).flatten

/-- The pool against the handle, with the completions `p` that are not processed. -/
structure Stored (inflight : Option Inflight) (ready : List Entry) (b : Pool α) (p : List Cqe)
    (freed : ℕ) : Prop where
  stream : ∃ rest, b.copied ++ rest = b.stream.flatten ∧
    (freed = 0 → rest = unread b.mem inflight ready p)
  perm : b.posted.Perm (b.returned ++ kept inflight ready p)
  nodup : (kept inflight ready p).Nodup
  lent : ∀ x, x ∈ b.lent ↔ x ∈ kept inflight ready p
  sizes : Measured b.mem inflight ready
  pending : ∀ x len more, Cqe.data x len more ∈ p →
    (b.mem x).length = len ∧ 0 < len ∧ len ≤ 2048

theorem mem_giveBack {back : List ℕ} (hnd : (back ++ l).Nodup)
    (hlent : ∀ x, x ∈ b.lent ↔ x ∈ back ++ l) (x : ℕ) :
    x ∈ (b.giveBack back).lent ↔ x ∈ l := by
  have hdis := (List.nodup_append.mp hnd).2.2
  simp only [Pool.giveBack, List.mem_filter, hlent, List.mem_append, Bool.not_eq_true',
    List.contains_eq_mem, decide_eq_false_iff_not]
  constructor
  · rintro ⟨hb | hl, hn⟩
    · exact absurd hb hn
    · exact hl
  · intro hl
    exact ⟨.inr hl, fun hb => hdis x hb x hl rfl⟩

/-- A locked copy. -/
theorem Stored.copyOut
    (h : Stored inflight ready b p 0) {c : Copy α} (hc : c.Splits b.mem inflight ready) :
    Stored c.inflight c.ready { b.giveBack c.back with copied := b.copied ++ c.out } p 0 := by
  obtain ⟨hbytes, hbids, hm⟩ := hc
  have hkept : kept inflight ready p = c.back ++ kept c.inflight c.ready p := by
    rw [kept, ← hbids, List.append_assoc]
    rfl
  constructor
  case stream =>
    obtain ⟨rest, hrest, heq⟩ := h.stream
    refine ⟨unread b.mem c.inflight c.ready p, ?_, fun _ => rfl⟩
    have hsplit : c.out ++ unread b.mem c.inflight c.ready p = rest := by
      rw [heq rfl, unread, ← List.append_assoc, hbytes]
      rfl
    calc (b.copied ++ c.out) ++ unread b.mem c.inflight c.ready p
        = b.copied ++ rest := by rw [List.append_assoc, hsplit]
      _ = b.stream.flatten := hrest
  case perm =>
    have hp := h.perm
    rw [hkept, ← List.append_assoc] at hp
    exact hp
  case nodup => exact ((List.nodup_append.mp (hkept ▸ h.nodup)).2.1)
  case lent => exact mem_giveBack (hkept ▸ h.nodup) (hkept ▸ h.lent)
  case sizes => exact hm
  case pending => exact h.pending

/-- `ms_free`. -/
theorem Stored.release
    (h : Stored inflight ready b [] 0) :
    Stored none []
      (b.giveBack (ready.map Entry.bid ++ (inflight.map Inflight.bid).toList)) [] 1 := by
  have hperm : (kept inflight ready []).Perm
      (ready.map Entry.bid ++ (inflight.map Inflight.bid).toList) := by
    simpa [kept, bids] using List.perm_append_comm
  constructor
  case stream =>
    obtain ⟨rest, hrest, -⟩ := h.stream
    exact ⟨rest, hrest, by rintro ⟨⟩⟩
  case perm => simpa [kept, bids, Pool.giveBack] using h.perm.trans (hperm.append_left _)
  case nodup => exact List.nodup_nil
  case lent =>
    refine mem_giveBack ?_ fun x => ?_
    · simpa [kept, bids] using hperm.nodup_iff.mp h.nodup
    · rw [h.lent x, hperm.mem_iff]
      simp [kept, bids]
  case sizes => exact ⟨by rintro _ ⟨⟩, by rintro _ ⟨⟩⟩
  case pending => rintro _ _ _ ⟨⟩

theorem bytes_congr {mem' : ℕ → List α}
    (hmem : ∀ x ∈ bids inflight ready, mem' x = mem x) :
    bytes mem' inflight ready = bytes mem inflight ready := by
  have hready : (ready.map fun e => mem' e.bid) = ready.map fun e => mem e.bid := by
    apply List.map_congr_left
    intro e he
    exact hmem _ (List.mem_append_right _ (List.mem_map_of_mem he))
  have hinflight : inflight.map (Inflight.rest mem') = inflight.map (Inflight.rest mem) := by
    cases inflight with
    | none => rfl
    | some i =>
      have hi : mem' i.bid = mem i.bid := hmem _ (by simp [bids])
      simp [Inflight.rest, hi]
  rw [bytes, hready, hinflight]
  rfl

theorem Measured.congr {mem' : ℕ → List α}
    (h : Measured mem inflight ready) (hmem : ∀ x ∈ bids inflight ready, mem' x = mem x) :
    Measured mem' inflight ready := by
  constructor
  · rintro i rfl
    rw [hmem i.bid (by simp [bids])]
    exact h.1 i rfl
  · intro e he
    rw [hmem e.bid (List.mem_append_right _ (List.mem_map_of_mem he))]
    exact h.2 e he

/-- The kernel posts data in a buffer that it has. -/
theorem Stored.data
    {freed : ℕ} (h : Stored inflight ready b p freed) {bid : ℕ} {l : List α}
    {more : Bool} (hbid : bid ∉ b.lent) (hpos : 0 < l.length) (hle : l.length ≤ 2048) :
    Stored inflight ready
      { b with
        mem := update b.mem bid l
        lent := bid :: b.lent
        stream := b.stream ++ [l]
        posted := b.posted ++ [bid] }
      (p ++ [Cqe.data bid l.length more]) freed := by
  have hnot : bid ∉ kept inflight ready p := fun hk => hbid ((h.lent bid).mpr hk)
  have hbids : (p ++ [Cqe.data bid l.length more]).filterMap Cqe.bid =
      p.filterMap Cqe.bid ++ [bid] := by
    simp [Cqe.bid]
  have hkept : kept inflight ready (p ++ [Cqe.data bid l.length more]) =
      kept inflight ready p ++ [bid] := by
    rw [kept, hbids, ← List.append_assoc]
    rfl
  have hmem : ∀ x ∈ kept inflight ready p, update b.mem bid l x = b.mem x := by
    intro x hx
    have hne : x ≠ bid := by
      rintro rfl
      exact hnot hx
    exact update_of_ne hne _ _
  have hmemB : ∀ x ∈ bids inflight ready, update b.mem bid l x = b.mem x :=
    fun x hx => hmem x (List.mem_append_left _ hx)
  constructor
  case stream =>
    obtain ⟨rest, hrest, heq⟩ := h.stream
    refine ⟨rest ++ l, ?_, fun hf => ?_⟩
    · rw [← List.append_assoc, hrest]
      simp
    · have hpend : (p.filterMap Cqe.bid).map (update b.mem bid l) =
          (p.filterMap Cqe.bid).map b.mem := by
        apply List.map_congr_left
        intro x hx
        exact hmem x (List.mem_append_right _ hx)
      rw [heq hf, unread, unread, hbids, bytes_congr hmemB, List.map_append, hpend]
      simp
  case perm =>
    rw [hkept, ← List.append_assoc]
    exact h.perm.append_right _
  case nodup =>
    rw [hkept, List.nodup_append]
    refine ⟨h.nodup, List.nodup_singleton _, ?_⟩
    intro x hx y hy hxy
    rw [List.mem_singleton] at hy
    exact hnot (hy ▸ hxy ▸ hx)
  case lent =>
    intro x
    rw [hkept, List.mem_cons, h.lent x, List.mem_append, List.mem_singleton, or_comm]
  case sizes => exact h.sizes.congr hmemB
  case pending =>
    intro x len more' hx
    rcases List.mem_append.mp hx with hx | hx
    · have hk : x ∈ kept inflight ready p :=
        List.mem_append_right _ (List.mem_filterMap.mpr ⟨_, hx, rfl⟩)
      dsimp only
      rw [hmem x hk]
      exact h.pending x len more' hx
    · simp only [List.mem_singleton, Cqe.data.injEq] at hx
      obtain ⟨rfl, rfl, rfl⟩ := hx
      dsimp only
      rw [update_self]
      exact ⟨rfl, hpos, hle⟩

/-- A completion without data is posted. -/
theorem Stored.other
    {freed : ℕ} (h : Stored inflight ready b p freed) {res : ℤ} {more : Bool} :
    Stored inflight ready b (p ++ [Cqe.other res more]) freed := by
  have hbids : (p ++ [Cqe.other res more]).filterMap Cqe.bid = p.filterMap Cqe.bid := by
    simp [Cqe.bid]
  have hkept : kept inflight ready (p ++ [Cqe.other res more]) = kept inflight ready p := by
    rw [kept, hbids]
    rfl
  constructor
  case stream =>
    obtain ⟨rest, hrest, heq⟩ := h.stream
    refine ⟨rest, hrest, fun hf => ?_⟩
    rw [heq hf, unread, unread, hbids]
  case perm => rw [hkept]; exact h.perm
  case nodup => rw [hkept]; exact h.nodup
  case lent => rw [hkept]; exact h.lent
  case sizes => exact h.sizes
  case pending =>
    intro x len more' hx
    rcases List.mem_append.mp hx with hx | hx
    · exact h.pending x len more' hx
    · simp at hx

/-- The first pending completion is processed. -/
theorem Stored.onCqe {h : Handle} {c : Cqe} {freed : ℕ}
    (hs : Stored h.inflight h.ready b (c :: p) freed) :
    Stored (h.onCqe c).inflight (h.onCqe c).ready b p freed := by
  cases c with
  | other res more =>
    exact { stream := hs.stream, perm := hs.perm, nodup := hs.nodup, lent := hs.lent
            sizes := hs.sizes
            pending := fun x len more' hx => hs.pending x len more' (List.mem_cons_of_mem _ hx) }
  | data bid len more =>
    obtain ⟨hlen, hpos, hle⟩ := hs.pending bid len more List.mem_cons_self
    have hmod : len % 2 ^ 16 = len := Nat.mod_eq_of_lt (by omega)
    have hkept : kept h.inflight (h.ready ++ [⟨bid, len⟩]) p =
        kept h.inflight h.ready (.data bid len more :: p) := by
      simp [kept, bids, Cqe.bid]
    have hunread : unread b.mem h.inflight (h.ready ++ [⟨bid, len⟩]) p =
        unread b.mem h.inflight h.ready (.data bid len more :: p) := by
      simp [unread, bytes, Cqe.bid]
    dsimp only [Handle.onCqe]
    rw [hmod]
    constructor
    case stream =>
      obtain ⟨rest, hrest, heq⟩ := hs.stream
      exact ⟨rest, hrest, fun hf => (heq hf).trans hunread.symm⟩
    case perm => rw [hkept]; exact hs.perm
    case nodup => rw [hkept]; exact hs.nodup
    case lent => rw [hkept]; exact hs.lent
    case sizes =>
      refine ⟨hs.sizes.1, fun e he => ?_⟩
      rcases List.mem_append.mp he with he | he
      · exact hs.sizes.2 e he
      · rw [List.mem_singleton] at he
        rw [he]
        exact ⟨hlen, hpos⟩
    case pending => exact fun x len' more' hx => hs.pending x len' more' (List.mem_cons_of_mem _ hx)

/-! ## The chain of nodes -/

/-- The links in memory are those of the list. -/
def Chain (nxt : ℕ → Option ℕ) : List ℕ → Prop
  | [] => True
  | a :: l => nxt a = l.head? ∧ Chain nxt l

theorem Chain.congr {nxt' : ℕ → Option ℕ} (h : Chain nxt l)
    (hl : ∀ x ∈ l, nxt' x = nxt x) : Chain nxt' l := by
  induction l with
  | nil => trivial
  | cons a l ih =>
    refine ⟨(hl a List.mem_cons_self).trans h.1, ih h.2 fun x hx => ?_⟩
    exact hl x (List.mem_cons_of_mem _ hx)

theorem Chain.push (h : Chain nxt l) (hf : f ∉ l) :
    Chain (update nxt f l.head?) (f :: l) := by
  refine ⟨update_self .., h.congr fun x hx => ?_⟩
  have hxf : x ≠ f := by
    rintro rfl
    exact hf hx
  exact update_of_ne hxf _ _

/-- Only nodes of the list are relinked. -/
theorem relink_of_notMem {x : ℕ} (hx : x ∉ l) :
    relink nxt f l x = nxt x := by
  induction l with
  | nil => rfl
  | cons a l ih =>
    cases l with
    | nil => rfl
    | cons b l =>
      have hxa : x ≠ a := fun e => hx (e ▸ List.mem_cons_self)
      unfold relink
      split
      · rfl
      · split
        · exact update_of_ne hxa _ _
        · exact ih fun hm => hx (List.mem_cons_of_mem _ hm)

theorem Chain.relink (h : Chain nxt l)
    (hnd : l.Nodup) : Chain (relink nxt f l) (l.erase f) := by
  induction l with
  | nil => trivial
  | cons a l ih =>
    obtain ⟨ha, hnd'⟩ := List.nodup_cons.mp hnd
    cases l with
    | nil =>
      by_cases haf : a = f
      · simp [haf, Chain]
      · rw [List.erase_cons_tail (by simpa using haf)]
        exact h
    | cons b l =>
      obtain ⟨hb, -⟩ := List.nodup_cons.mp hnd'
      unfold Multishot.relink
      split
      case isTrue haf =>
        rw [haf, List.erase_cons_head]
        exact h.2
      case isFalse haf =>
        rw [List.erase_cons_tail (by simpa using haf)]
        split
        case isTrue hbf =>
          rw [hbf, List.erase_cons_head]
          refine ⟨?_, h.2.2.congr fun x hx => ?_⟩
          · rw [update_self, ← hbf]
            exact h.2.1
          · have hxa : x ≠ a := fun e => ha (e ▸ List.mem_cons_of_mem _ hx)
            exact update_of_ne hxa _ _
        case isFalse hbf =>
          refine ⟨?_, ih h.2 hnd'⟩
          rw [relink_of_notMem ha, List.erase_cons_tail (by simpa using hbf)]
          exact h.1

/-! ## The waiters -/

/-- The call has its reference. -/
@[grind =]
def Pc.pinned : Pc → Bool
  | .link _ | .park _ | .asleep _ | .unlink _ | .relock _ => true
  | _ => false

/-- The call is asleep, or on its way there. -/
def Pc.waits : Pc → Bool
  | .link _ | .park _ | .asleep _ => true
  | _ => false

/-- The link that a drain will follow next. -/
@[grind =]
def Drain.link : Drain → Option (Option ℕ)
  | .node x _ | .wake _ x _ => some x
  | _ => none

/-- The drain is about to wake the fiber. -/
def Drain.wakes : Drain → Option ℕ
  | .wake f _ _ => some f
  | _ => none

structure Nodes (s : State α) : Prop where
  nodup : s.h.waiters.Nodup
  onList : ∀ f, s.onList f = true ↔ f ∈ s.h.waiters
  chain : Chain s.nxt s.h.waiters
  inCall : ∀ f ∈ s.h.waiters, (s.pc f).pinned = true
  quiet : s.h.waiters ≠ [] →
    s.h.inflight = none ∧ s.h.ready = [] ∧ s.h.eof = false ∧ s.h.err = 0
  taken : s.detached.Nodup
  chained : Chain s.nxt s.detached
  calls : ∀ f ∈ s.detached, (s.pc f).pinned = true
  apart : ∀ f ∈ s.detached, f ∉ s.h.waiters
  walking : ∀ d x, (s.drain d).link = some x → x = s.detached.head?
  busy : s.detached ≠ [] → ∃ d x, (s.drain d).link = some x
  parked : ∀ f, (s.pc f).waits = true →
    f ∈ s.h.waiters ∨ f ∈ s.detached ∨ (∃ d, (s.drain d).wakes = some f) ∨ s.woken f = true

/-- A step that leaves the nodes and the lists alone. -/
theorem Nodes.frame {t : State α} (h : Nodes s) (hwaiters : t.h.waiters = s.h.waiters)
    (hquiet : t.h.waiters ≠ [] →
      t.h.inflight = none ∧ t.h.ready = [] ∧ t.h.eof = false ∧ t.h.err = 0)
    (honList : t.onList = s.onList) (hnxt : t.nxt = s.nxt) (hdet : t.detached = s.detached)
    (hpin : ∀ f, (s.pc f).pinned = true → (t.pc f).pinned = true)
    (hlink : ∀ d, (t.drain d).link = (s.drain d).link)
    (hwakes : ∀ d, (t.drain d).wakes = (s.drain d).wakes)
    (hparked : ∀ f, (t.pc f).waits = true →
      (s.pc f).waits = true ∧ (s.woken f = true → t.woken f = true)) : Nodes t := by
  constructor
  case nodup => rw [hwaiters]; exact h.nodup
  case onList => rw [honList, hwaiters]; exact h.onList
  case chain => rw [hnxt, hwaiters]; exact h.chain
  case inCall =>
    intro f hf
    rw [hwaiters] at hf
    exact hpin f (h.inCall f hf)
  case quiet => exact hquiet
  case taken => rw [hdet]; exact h.taken
  case chained => rw [hnxt, hdet]; exact h.chained
  case calls =>
    intro f hf
    rw [hdet] at hf
    exact hpin f (h.calls f hf)
  case apart => rw [hdet, hwaiters]; exact h.apart
  case walking =>
    intro d x hx
    rw [hdet]
    rw [hlink] at hx
    exact h.walking d x hx
  case busy =>
    rw [hdet]
    intro hne
    obtain ⟨d, x, hx⟩ := h.busy hne
    exact ⟨d, x, (hlink d).trans hx⟩
  case parked =>
    intro f hf
    obtain ⟨hw, hwoken⟩ := hparked f hf
    rw [hwaiters, hdet]
    rcases h.parked f hw with hm | hm | ⟨d, hd⟩ | hm
    · exact .inl hm
    · exact .inr (.inl hm)
    · exact .inr (.inr (.inl ⟨d, (hwakes d).trans hd⟩))
    · exact .inr (.inr (.inr (hwoken hm)))

theorem head?_tail (h : l.head? = some f) : l = f :: l.tail := by
  cases l with
  | nil => cases h
  | cons a l =>
    cases h
    rfl

/-- The start of a call. -/
theorem Nodes.pin (h : Nodes s) (hf : (s.pc f).rests = true) :
    Nodes (s.pin f n) := by
  have hnot : (s.pc f).pinned = false := by
    cases hpc : s.pc f <;> first | rfl | (rw [hpc] at hf; cases hf)
  have hw : f ∉ s.h.waiters := fun hm => absurd ((h.inCall f hm).symm.trans hnot) (by rintro ⟨⟩)
  have hd : f ∉ s.detached := fun hm => absurd ((h.calls f hm).symm.trans hnot) (by rintro ⟨⟩)
  have hnxt : ∀ l : List ℕ, f ∉ l → ∀ x ∈ l, update s.nxt f none x = s.nxt x := by
    intro l hl x hx
    have hxf : x ≠ f := by
      rintro rfl
      exact hl hx
    exact update_of_ne hxf _ _
  have hpin : ∀ x, (s.pc x).pinned = true →
      (update s.pc f (Pc.relock n) x).pinned = true := by
    intro x hx
    by_cases hxf : x = f
    · rw [hxf, update_self]
      rfl
    · rw [update_of_ne hxf]
      exact hx
  constructor
  case nodup => exact h.nodup
  case onList =>
    intro x
    by_cases hxf : x = f
    · subst hxf
      simp [State.pin, hw]
    · simp only [State.pin, update_of_ne hxf]
      exact h.onList x
  case chain => exact h.chain.congr (hnxt _ hw)
  case inCall => exact fun x hx => hpin x (h.inCall x hx)
  case quiet => exact h.quiet
  case taken => exact h.taken
  case chained => exact h.chained.congr (hnxt _ hd)
  case calls => exact fun x hx => hpin x (h.calls x hx)
  case apart => exact h.apart
  case walking => exact h.walking
  case busy => exact h.busy
  case parked =>
    intro x hx
    by_cases hxf : x = f
    · rw [hxf] at hx
      simp [State.pin, Pc.waits] at hx
    · simp only [State.pin, update_of_ne hxf] at hx
      exact h.parked x hx

/-- The end of a call, whose node no drain has. -/
theorem Nodes.done (h : Nodes s) {r : ℤ} (hf : (s.pc f).waits = false)
    (hd : f ∉ s.detached) : Nodes (s.done f r) := by
  have hpin : ∀ x, x ≠ f → ∀ q : Pc, (s.pc x).pinned = true →
      (update s.pc f q x).pinned = true := by
    intro x hx q hp
    rw [update_of_ne hx]
    exact hp
  have hparked : ∀ x q, (update s.pc f q x).waits = true → q.waits = false →
      x ≠ f ∧ (s.pc x).waits = true := by
    intro x q hx hq
    by_cases hxf : x = f
    · rw [hxf, update_self, hq] at hx
      cases hx
    · rw [update_of_ne hxf] at hx
      exact ⟨hxf, hx⟩
  have hq : ∀ k : ℕ, (if k = 1 then Pc.free r else Pc.returned r).waits = false := by
    intro k
    split <;> rfl
  unfold State.done
  split
  case isTrue hon =>
    have hin : f ∈ s.h.waiters := (h.onList f).mp hon
    have hne : ∀ x ∈ s.h.waiters.erase f, x ≠ f ∧ x ∈ s.h.waiters := fun x hx =>
      (List.Nodup.mem_erase_iff h.nodup).mp hx
    constructor
    case nodup => exact h.nodup.erase f
    case onList =>
      intro x
      dsimp only
      rw [List.Nodup.mem_erase_iff h.nodup]
      by_cases hxf : x = f
      · simp [hxf]
      · rw [update_of_ne hxf, h.onList x]
        simp [hxf]
    case chain => exact h.chain.relink h.nodup
    case inCall => exact fun x hx => hpin x (hne x hx).1 _ (h.inCall x (hne x hx).2)
    case quiet => exact fun _ => h.quiet (List.ne_nil_of_mem hin)
    case taken => exact h.taken
    case chained => exact h.chained.congr fun x hx => relink_of_notMem (h.apart x hx)
    case calls =>
      intro x hx
      have hxf : x ≠ f := by
        rintro rfl
        exact hd hx
      exact hpin x hxf _ (h.calls x hx)
    case apart => exact fun x hx hm => h.apart x hx (hne x hm).2
    case walking => exact h.walking
    case busy => exact h.busy
    case parked =>
      intro x hx
      obtain ⟨hxf, hw⟩ := hparked x _ hx (hq _)
      rcases h.parked x hw with hm | hm
      · exact .inl ((List.Nodup.mem_erase_iff h.nodup).mpr ⟨hxf, hm⟩)
      · exact .inr hm
  case isFalse hon =>
    have hout : f ∉ s.h.waiters := fun hm => hon ((h.onList f).mpr hm)
    constructor
    case nodup => exact h.nodup
    case onList => exact h.onList
    case chain => exact h.chain
    case inCall =>
      intro x hx
      have hxf : x ≠ f := by
        rintro rfl
        exact hout hx
      exact hpin x hxf _ (h.inCall x hx)
    case quiet => exact h.quiet
    case taken => exact h.taken
    case chained => exact h.chained
    case calls =>
      intro x hx
      have hxf : x ≠ f := by
        rintro rfl
        exact hd hx
      exact hpin x hxf _ (h.calls x hx)
    case apart => exact h.apart
    case walking => exact h.walking
    case busy => exact h.busy
    case parked =>
      intro x hx
      obtain ⟨-, hw⟩ := hparked x _ hx (hq _)
      exact h.parked x hw

/-- The park of a call, which has found nothing and whose node no drain has. -/
theorem Nodes.sleep (h : Nodes s) (hd : f ∉ s.detached)
    (hquiet : s.h.inflight = none ∧ s.h.ready = [] ∧ s.h.eof = false ∧ s.h.err = 0) :
    Nodes (s.sleep f n) := by
  have hpin : ∀ x, (x = f ∨ (s.pc x).pinned = true) →
      (update s.pc f (Pc.link n) x).pinned = true := by
    intro x hx
    by_cases hxf : x = f
    · rw [hxf, update_self]
      rfl
    · rw [update_of_ne hxf]
      exact hx.resolve_left hxf
  have hparked : ∀ x, (update s.pc f (Pc.link n) x).waits = true →
      x = f ∨ (s.pc x).waits = true := by
    intro x hx
    by_cases hxf : x = f
    · exact .inl hxf
    · rw [update_of_ne hxf] at hx
      exact .inr hx
  unfold State.sleep
  split
  case isTrue hon =>
    constructor
    case nodup => exact h.nodup
    case onList => exact h.onList
    case chain => exact h.chain
    case inCall => exact fun x hx => hpin x (.inr (h.inCall x hx))
    case quiet => exact fun _ => hquiet
    case taken => exact h.taken
    case chained => exact h.chained
    case calls => exact fun x hx => hpin x (.inr (h.calls x hx))
    case apart => exact h.apart
    case walking => exact h.walking
    case busy => exact h.busy
    case parked =>
      intro x hx
      rcases hparked x hx with rfl | hw
      · exact .inl ((h.onList x).mp hon)
      · exact h.parked x hw
  case isFalse hon =>
    have hout : f ∉ s.h.waiters := fun hm => hon ((h.onList f).mpr hm)
    constructor
    case nodup => exact List.nodup_cons.mpr ⟨hout, h.nodup⟩
    case onList =>
      intro x
      dsimp only
      rw [List.mem_cons]
      by_cases hxf : x = f
      · simp [hxf]
      · rw [update_of_ne hxf, h.onList x]
        simp [hxf]
    case chain => exact h.chain.push hout
    case inCall =>
      intro x hx
      rcases List.mem_cons.mp hx with hxf | hx
      · exact hpin x (.inl hxf)
      · exact hpin x (.inr (h.inCall x hx))
    case quiet => exact fun _ => hquiet
    case taken => exact h.taken
    case chained =>
      refine h.chained.congr fun x hx => ?_
      have hxf : x ≠ f := by
        rintro rfl
        exact hd hx
      exact update_of_ne hxf _ _
    case calls => exact fun x hx => hpin x (.inr (h.calls x hx))
    case apart =>
      intro x hx hm
      rcases List.mem_cons.mp hm with hxf | hm
      · exact hd (hxf ▸ hx)
      · exact h.apart x hx hm
    case walking => exact h.walking
    case busy => exact h.busy
    case parked =>
      intro x hx
      rcases hparked x hx with hxf | hw
      · exact .inl (hxf ▸ List.mem_cons_self)
      · rcases h.parked x hw with hm | hm
        · exact .inl (List.mem_cons_of_mem _ hm)
        · exact .inr hm

/-- No other drain has nodes in hand. -/
def Sole (s : State α) (d : ℕ) : Prop :=
  ∀ e, e ≠ d → (s.drain e).link = none ∧ (s.drain e).wakes = none

/-- A drain detaches the waiters. -/
theorem Nodes.onCqe (h : Nodes s) {c : Cqe} (hs : Sole s d)
    (hd : s.drain d = .process c) : Nodes (s.onCqe d c) := by
  have hnone : ∀ e, (s.drain e).link = none ∧ (s.drain e).wakes = none := by
    intro e
    by_cases hed : e = d
    · rw [hed, hd]
      exact ⟨rfl, rfl⟩
    · exact hs e hed
  have hempty : s.detached = [] := by
    by_contra hne
    obtain ⟨e, x, hx⟩ := h.busy hne
    rw [(hnone e).1] at hx
    cases hx
  constructor
  case nodup => exact List.nodup_nil
  case onList =>
    intro f
    simp only [State.onCqe, List.not_mem_nil, iff_false, Bool.and_eq_true, Bool.not_eq_true',
      List.contains_eq_mem, decide_eq_false_iff_not, not_and, not_not]
    exact (h.onList f).mp
  case chain => trivial
  case inCall => rintro _ ⟨⟩
  case quiet => exact fun hne => absurd rfl hne
  case taken => exact h.nodup
  case chained => exact h.chain
  case calls => exact h.inCall
  case apart => exact fun _ _ => List.not_mem_nil
  case walking =>
    intro e x hx
    by_cases hed : e = d
    · subst hed
      simp only [State.onCqe, update_self, Drain.link, Option.some.injEq] at hx
      exact hx.symm
    · simp only [State.onCqe, update_of_ne hed, (hnone e).1] at hx
      cases hx
  case busy => exact fun _ => ⟨d, _, by simp only [State.onCqe, update_self]; rfl⟩
  case parked =>
    intro f hf
    rcases h.parked f hf with hm | hm | ⟨e, he⟩ | hm
    · exact .inr (.inl hm)
    · rw [hempty] at hm
      cases hm
    · rw [(hnone e).2] at he
      cases he
    · exact .inr (.inr (.inr hm))

/-- A drain reads a node. -/
theorem Nodes.read (h : Nodes s) {last : Bool} (hs : Sole s d)
    (hd : s.drain d = .node (some f) last) :
    Nodes { s.act d (.wake f (s.nxt f) last) with detached := s.detached.tail } := by
  have hhead : s.detached = f :: s.detached.tail :=
    head?_tail (h.walking d (some f) (by rw [hd]; rfl)).symm
  have htail : ∀ x ∈ s.detached.tail, x ∈ s.detached := fun x hx => List.mem_of_mem_tail hx
  have hchain := h.chained
  rw [hhead] at hchain
  constructor
  case nodup => exact h.nodup
  case onList => exact h.onList
  case chain => exact h.chain
  case inCall => exact h.inCall
  case quiet => exact h.quiet
  case taken => exact h.taken.sublist (List.tail_sublist _)
  case chained => exact hchain.2
  case calls => exact fun x hx => h.calls x (htail x hx)
  case apart => exact fun x hx => h.apart x (htail x hx)
  case walking =>
    intro e x hx
    by_cases hed : e = d
    · subst hed
      simp only [State.act, update_self, Drain.link, Option.some.injEq] at hx
      exact hx.symm.trans hchain.1
    · simp only [State.act, update_of_ne hed, (hs e hed).1] at hx
      cases hx
  case busy => exact fun _ => ⟨d, _, by simp only [State.act, update_self]; rfl⟩
  case parked =>
    intro x hx
    rcases h.parked x hx with hm | hm | ⟨e, he⟩ | hm
    · exact .inl hm
    · rw [hhead] at hm
      rcases List.mem_cons.mp hm with rfl | hm
      · exact .inr (.inr (.inl ⟨d, by simp only [State.act, update_self]; rfl⟩))
      · exact .inr (.inl hm)
    · by_cases hed : e = d
      · rw [hed, hd] at he
        cases he
      · rw [(hs e hed).2] at he
        cases he
    · exact .inr (.inr (.inr hm))

/-- A drain wakes the fiber of the node that it has read. -/
theorem Nodes.wake (h : Nodes s) {x : Option ℕ} {last : Bool}
    (hs : Sole s d) (hd : s.drain d = .wake f x last) :
    Nodes { s.act d (.node x last) with woken := update s.woken f true } := by
  constructor
  case nodup => exact h.nodup
  case onList => exact h.onList
  case chain => exact h.chain
  case inCall => exact h.inCall
  case quiet => exact h.quiet
  case taken => exact h.taken
  case chained => exact h.chained
  case calls => exact h.calls
  case apart => exact h.apart
  case walking =>
    intro e y hy
    by_cases hed : e = d
    · subst hed
      simp only [State.act, update_self, Drain.link, Option.some.injEq] at hy
      exact hy.symm.trans (h.walking e x (by rw [hd]; rfl))
    · simp only [State.act, update_of_ne hed, (hs e hed).1] at hy
      cases hy
  case busy => exact fun _ => ⟨d, _, by simp only [State.act, update_self]; rfl⟩
  case parked =>
    intro y hy
    by_cases hyf : y = f
    · rw [hyf]
      exact .inr (.inr (.inr (update_self ..)))
    · rcases h.parked y hy with hm | hm | ⟨e, he⟩ | hm
      · exact .inl hm
      · exact .inr (.inl hm)
      · by_cases hed : e = d
        · rw [hed, hd] at he
          exact absurd (Option.some.inj he).symm hyf
        · rw [(hs e hed).2] at he
          cases he
      · exact .inr (.inr (.inr ((update_of_ne hyf _ _).trans hm)))

/-- A drain that is at the end of its nodes, or has none, goes on. -/
theorem Nodes.act {t : State α} (h : Nodes s) {q : Drain}
    (hdrain : t.drain = update s.drain d q) (hh : t.h.waiters = s.h.waiters)
    (hquiet : t.h.waiters ≠ [] →
      t.h.inflight = none ∧ t.h.ready = [] ∧ t.h.eof = false ∧ t.h.err = 0)
    (honList : t.onList = s.onList) (hnxt : t.nxt = s.nxt) (hdet : t.detached = s.detached)
    (hpc : t.pc = s.pc) (hwoken : t.woken = s.woken) (hs : Sole s d)
    (hd : (s.drain d).link = none ∨ (s.drain d).link = some none)
    (hwakes : (s.drain d).wakes = none) (hq : q.link = none) : Nodes t := by
  have hempty : s.detached = [] := by
    by_contra hne
    obtain ⟨e, x, hx⟩ := h.busy hne
    by_cases hed : e = d
    · rw [hed] at hx
      rcases hd with hd | hd
      · rw [hd] at hx
        cases hx
      · have hhead := h.walking d none hd
        exact hne (List.head?_eq_none_iff.mp hhead.symm)
    · rw [(hs e hed).1] at hx
      cases hx
  constructor
  case nodup => rw [hh]; exact h.nodup
  case onList => rw [honList, hh]; exact h.onList
  case chain => rw [hnxt, hh]; exact h.chain
  case inCall => rw [hh, hpc]; exact h.inCall
  case quiet => exact hquiet
  case taken => rw [hdet]; exact h.taken
  case chained => rw [hnxt, hdet]; exact h.chained
  case calls => rw [hdet, hpc]; exact h.calls
  case apart => rw [hdet, hh]; exact h.apart
  case walking =>
    intro e x hx
    rw [hdrain] at hx
    by_cases hed : e = d
    · rw [hed, update_self, hq] at hx
      cases hx
    · rw [update_of_ne hed, (hs e hed).1] at hx
      cases hx
  case busy => rw [hdet, hempty]; exact fun hne => absurd rfl hne
  case parked =>
    intro f hf
    rw [hpc] at hf
    rw [hh, hdet, hwoken]
    rcases h.parked f hf with hm | hm | ⟨e, he⟩ | hm
    · exact .inl hm
    · exact .inr (.inl hm)
    · by_cases hed : e = d
      · rw [hed, hwakes] at he
        cases he
      · rw [(hs e hed).2] at he
        cases he
    · exact .inr (.inr (.inr hm))

/-- A locked copy: with waiters on the list there is nothing to copy. -/
theorem Nodes.copyOut (h : Nodes s) (n : ℕ) :
    Nodes (s.copyOut (fetch s.pool.mem n s.h.inflight s.h.ready)) := by
  refine h.frame rfl ?_ rfl rfl rfl (fun _ hp => hp) (fun _ => rfl) (fun _ => rfl)
    (fun _ hf => ⟨hf, id⟩)
  intro hne
  obtain ⟨hi, hr, he⟩ := h.quiet hne
  rw [State.copyOut, hi, hr]
  exact ⟨rfl, rfl, he⟩

end Stackweave.IoUring.Multishot
