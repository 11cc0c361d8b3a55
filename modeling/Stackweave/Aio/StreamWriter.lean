import Mathlib.Data.List.Infix
import Mathlib.Logic.Function.Basic
import Mathlib.Tactic.Common
import Stackweave.Transition

/-!
# `StreamWriter` (`aio/streams.py`)

Any number of tasks that call `write`, `writelines`, `drain` and `close` on one writer.
Over a plain socket a `send` and the `del _buf[:n]` after it are one step. Over a
`_MemoryBIOTLS` the SSL object takes the bytes, then `_pump_out` may park, and only then
is the buffer trimmed, so these are two steps.

`written` are the bytes of the write calls in their order, `accepted` those that the
socket, or the SSL object, has taken.
-/

namespace Stackweave.Aio.StreamWriter

open Transition Function

inductive Call
  | write
  | drain
  | close
  deriving DecidableEq

/-- Where a task is; `mark` is the number of bytes written before its call. -/
inductive Pc
  | idle
  /-- at the test of the flush loop -/
  | flushing (c : Call) (mark : ℕ)
  /-- in the `_wait_fd` of `_flush_blocking` -/
  | parked (c : Call) (mark : ℕ)
  /-- in `_MemoryBIOTLS.send`, the SSL object wants to read or write first -/
  | retrying (c : Call) (mark : ℕ)
  /-- in its `_pump_out`: the SSL object has taken `n` bytes -/
  | sending (c : Call) (mark n : ℕ)
  | returned (c : Call) (mark : ℕ)
  | raised
  deriving DecidableEq

/-- `shut` says that the socket is closed. -/
structure State (B : Type) where
  buf : List B
  closed : Bool
  shut : Bool
  pc : ℕ → Pc
  written : List B
  accepted : List B

variable {B : Type}

def init : State B :=
  { buf := [], closed := false, shut := false, pc := fun _ => .idle, written := [], accepted := [] }

inductive Action (B : Type)
  | write (f : ℕ) (data : List B)
  | writelines (f : ℕ) (lines : List (List B))
  | drain (f : ℕ)
  | close (f : ℕ)
  /-- a plain `send` that accepts `n` bytes -/
  | send (f n : ℕ)
  /-- a plain `send` that would block -/
  | block (f : ℕ)
  /-- `_obj.write` takes `n` bytes -/
  | take (f n : ℕ)
  /-- `_obj.write` wants to read or write first -/
  | want (f : ℕ)
  /-- `_pump_out` is over -/
  | trim (f : ℕ)
  | ready (f : ℕ)
  | exit (f : ℕ)
  /-- a `send` on the closed socket -/
  | fail (f : ℕ)

def Pc.rests : Pc → Bool
  | .idle | .returned _ _ | .raised => true
  | _ => false

def State.goto (s : State B) (f : ℕ) (q : Pc) : State B :=
  { s with pc := Function.update s.pc f q }

/-- `_buf.extend(data)`. -/
def State.extend (s : State B) (data : List B) : State B :=
  { s with buf := s.buf ++ data, written := s.written ++ data }

/-- The SSL object takes the first `k` bytes of the buffer. -/
def State.take (s : State B) (f : ℕ) (c : Call) (mark k : ℕ) : State B :=
  State.goto { s with accepted := s.accepted ++ s.buf.take k } f (.sending c mark k)

/-- Where a flush goes on when nothing was sent. -/
def Call.stall (c : Call) (mark : ℕ) : Pc :=
  match c with
  | .write => .returned c mark
  | .drain | .close => .parked c mark

/-- The flush is over; `close` then closes the socket. -/
def State.leave (s : State B) (f : ℕ) (c : Call) (mark : ℕ) : State B :=
  State.goto { s with shut := s.shut || c == .close } f (.returned c mark)

/-- What a task does about an `OSError` of its flush. -/
def State.error (s : State B) (f : ℕ) (c : Call) (mark : ℕ) : State B :=
  match c with
  | .close => s.leave f c mark
  | .write | .drain => s.goto f .raised

/-- The tasks are those below `n`. -/
@[grind =]
def step (tls : Bool) (n : ℕ) (s : State B) : Action B → Option (State B)
  | .write f data =>
    if f < n ∧ (s.pc f).rests = true then
      if s.closed then some (s.goto f .raised)
      else some ((s.extend data).goto f (.flushing .write s.written.length))
    else none
  | .writelines f lines =>
    if f < n ∧ (s.pc f).rests = true then
      some ((s.extend lines.flatten).goto f (.flushing .write s.written.length))
    else none
  | .drain f =>
    if f < n ∧ (s.pc f).rests = true then some (s.goto f (.flushing .drain s.written.length))
    else none
  | .close f =>
    if f < n ∧ (s.pc f).rests = true then
      if s.closed then some (s.goto f (.returned .close s.written.length))
      else some (State.goto { s with closed := true } f (.flushing .close s.written.length))
    else none
  | .send f k =>
    match s.pc f with
    | .flushing _ _ =>
      if tls = false ∧ s.shut = false ∧ 0 < k ∧ k ≤ s.buf.length then
        some { s with buf := s.buf.drop k, accepted := s.accepted ++ s.buf.take k }
      else none
    | _ => none
  | .block f =>
    match s.pc f with
    | .flushing c mark =>
      if tls = false ∧ s.shut = false ∧ s.buf ≠ [] then some (s.goto f (c.stall mark)) else none
    | _ => none
  | .take f k =>
    match s.pc f with
    | .flushing c mark =>
      if tls = true ∧ s.shut = false ∧ k ≤ s.buf.length ∧ 0 < k then some (s.take f c mark k)
      else none
    | .retrying c mark =>
      -- the buffer may be empty by now
      if tls = true ∧ s.shut = false ∧ k ≤ s.buf.length ∧ (k = 0 → s.buf = []) then
        some (s.take f c mark k)
      else none
    | _ => none
  | .want f =>
    match s.pc f with
    | .flushing c mark =>
      if tls = true ∧ s.shut = false ∧ s.buf ≠ [] then some (s.goto f (.retrying c mark)) else none
    | .retrying c mark =>
      if tls = true ∧ s.shut = false then some (s.goto f (.retrying c mark)) else none
    | _ => none
  | .trim f =>
    match s.pc f with
    | .sending c mark k =>
      if k = 0 then some (s.goto f (c.stall mark))
      else some (State.goto { s with buf := s.buf.drop k } f (.flushing c mark))
    | _ => none
  | .ready f =>
    match s.pc f with
    | .parked c mark => some (s.goto f (.flushing c mark))
    | _ => none
  | .exit f =>
    match s.pc f with
    | .flushing c mark => if s.buf = [] then some (s.leave f c mark) else none
    | _ => none
  | .fail f =>
    match s.pc f with
    | .flushing c mark => if s.shut = true ∧ s.buf ≠ [] then some (s.error f c mark) else none
    | .retrying c mark | .sending c mark _ => if s.shut then some (s.error f c mark) else none
    | _ => none

def system (tls : Bool) (n : ℕ) : System (State B) (Action B) where
  init s := s = init
  step := step tls n

/-- The task has had bytes taken and has not trimmed the buffer. -/
def Pc.sends : Pc → Bool
  | .sending _ _ _ => true
  | _ => false

/-- The SSL object takes bytes while another task has yet to trim the buffer, or a `close`
finds the writer closed with bytes left in its buffer. -/
def overlaps (n : ℕ) (s : State B) : Action B → Bool
  | .take _ _ => (List.range n).any fun f => (s.pc f).sends
  | .close _ => s.closed && !s.buf.isEmpty
  | _ => false

def soundSystem (tls : Bool) (n : ℕ) : System (State B) (Action B) :=
  (system tls n).restrict fun s a => overlaps n s a = false

/-- The accepted bytes are the first of the written ones, and those written before a `drain`
or `close` that has returned are among them. -/
structure Conserves (s : State B) : Prop where
  order : s.accepted <+: s.written
  returned : ∀ f c mark, s.pc f = .returned c mark → c ≠ .write → mark ≤ s.accepted.length

/-! ## The invariant -/

/-- The mark of a call in progress. -/
def Pc.mark : Pc → Option ℕ
  | .flushing _ m | .parked _ m | .retrying _ m | .sending _ m _ => some m
  | _ => none

/-- The `close` that has set `_closed` and has not closed the socket. -/
def Pc.closing : Pc → Bool
  | .flushing .close _ | .parked .close _ | .retrying .close _ | .sending .close _ _ => true
  | _ => false

/-- The buffer is what is left to be accepted, after the bytes that a task has had taken. -/
structure Bytes (s : State B) : Prop where
  still : (∀ f, (s.pc f).sends = false) → s.written = s.accepted ++ s.buf
  taken : ∀ f c m k, s.pc f = .sending c m k →
    k ≤ s.buf.length ∧ s.written = s.accepted ++ s.buf.drop k ∧ (s.shut = true → k = 0)
  alone : ∀ f g, (s.pc f).sends = true → (s.pc g).sends = true → f = g

structure Calls (tls : Bool) (n : ℕ) (s : State B) : Prop where
  bound : ∀ f, n ≤ f → s.pc f = .idle
  plain : tls = false → ∀ f, (s.pc f).sends = false
  marks : ∀ f m, (s.pc f).mark = some m → m ≤ s.written.length
  returned : ∀ f c m, s.pc f = .returned c m → c ≠ .write → m ≤ s.accepted.length
  closing : ∀ f, (s.pc f).closing = true → s.closed = true ∧ s.shut = false
  once : ∀ f g, (s.pc f).closing = true → (s.pc g).closing = true → f = g
  shut : s.shut = true → s.closed = true

structure Inv (tls : Bool) (n : ℕ) (s : State B) : Prop where
  bytes : Bytes s
  calls : Calls tls n s

theorem inv_init (tls : Bool) (n : ℕ) : Inv tls n (init : State B) where
  bytes := ⟨fun _ => rfl, by rintro _ _ _ _ ⟨⟩, by rintro _ _ ⟨⟩⟩
  calls := ⟨fun _ _ => rfl, fun _ _ => rfl, by rintro _ _ ⟨⟩, by rintro _ _ _ ⟨⟩, by rintro _ ⟨⟩, by rintro _ _ ⟨⟩, by rintro ⟨⟩⟩

section Steps

variable {tls : Bool} {n : ℕ} {s t : State B} {f : ℕ} {q : Pc}

theorem Bytes.conserves (h : Bytes s) : s.accepted <+: s.written := by
  by_cases hs : ∀ f, (s.pc f).sends = false
  · exact ⟨s.buf, (h.still hs).symm⟩
  · obtain ⟨f, hf⟩ := not_forall.mp hs
    cases hpc : s.pc f with
    | sending c m k => exact ⟨s.buf.drop k, ((h.taken f c m k hpc).2.1).symm⟩
    | idle | flushing | parked | retrying | returned | raised =>
      rw [hpc] at hf
      exact absurd rfl hf

/-- With an empty buffer everything is accepted. -/
theorem Bytes.all_accepted (h : Bytes s) (hb : s.buf = []) : s.written = s.accepted := by
  by_cases hs : ∀ f, (s.pc f).sends = false
  · rw [h.still hs, hb, List.append_nil]
  · obtain ⟨f, hf⟩ := not_forall.mp hs
    cases hpc : s.pc f with
    | sending c m k => rw [(h.taken f c m k hpc).2.1, hb, List.drop_nil, List.append_nil]
    | idle | flushing | parked | retrying | returned | raised =>
      rw [hpc] at hf
      exact absurd rfl hf

/-- A task that has nothing taken goes on, and bytes may be appended. -/
theorem Bytes.goto (h : Bytes s) (data : List B) (hpc : t.pc = update s.pc f q)
    (hw : t.written = s.written ++ data) (hb : t.buf = s.buf ++ data)
    (ha : t.accepted = s.accepted) (hold : (s.pc f).sends = false) (hnew : q.sends = false)
    (hshut : t.shut = s.shut ∨ s.buf = []) : Bytes t := by
  have hother : ∀ g, (t.pc g).sends = true → t.pc g = s.pc g := by
    intro g hg
    by_cases hgf : g = f
    · rw [hpc, hgf, update_self, hnew] at hg
      cases hg
    · rw [hpc, update_of_ne hgf]
  constructor
  case still =>
    intro hnone
    have hs : ∀ g, (s.pc g).sends = false := by
      intro g
      by_cases hgf : g = f
      · rw [hgf]
        exact hold
      · have hg := hnone g
        rwa [hpc, update_of_ne hgf] at hg
    rw [hw, ha, hb, h.still hs, List.append_assoc]
  case taken =>
    intro g c m k hg
    have hsame := hother g (by rw [hg]; rfl)
    obtain ⟨hle, heq, hzero⟩ := h.taken g c m k (hsame ▸ hg)
    refine ⟨?_, ?_, fun hx => ?_⟩
    · rw [hb, List.length_append]
      omega
    · rw [hw, ha, hb, heq, List.drop_append_of_le_length hle, List.append_assoc]
    · rcases hshut with hshut | hempty
      · exact hzero (hshut ▸ hx)
      · rw [hempty] at hle
        exact Nat.le_zero.mp hle
  case alone =>
    intro g g' hg hg'
    exact h.alone g g' (hother g hg ▸ hg) (hother g' hg' ▸ hg')

variable {c : Call} {m k : ℕ}

theorem Bytes.take (h : Bytes s) (hnone : ∀ g, (s.pc g).sends = false)
    (hk : k ≤ s.buf.length) (hshut : s.shut = false) : Bytes (s.take f c m k) := by
  have hself : ∀ g, (update s.pc f (.sending c m k) g).sends = true → g = f := by
    intro g hg
    by_contra hgf
    rw [update_of_ne hgf, hnone g] at hg
    cases hg
  constructor
  case still =>
    intro hx
    have hf := hx f
    simp [State.take, State.goto, Pc.sends] at hf
  case taken =>
    intro g c' m' k' hg
    have hgf := hself g (by
      have hg : update s.pc f (.sending c m k) g = _ := hg
      rw [hg]
      rfl)
    rw [hgf] at hg
    have hg : update s.pc f (.sending c m k) f = _ := hg
    rw [update_self] at hg
    cases hg
    refine ⟨hk, ?_, fun hx => absurd (hshut.symm.trans hx) (by rintro ⟨⟩)⟩
    show s.written = (s.accepted ++ s.buf.take k) ++ s.buf.drop k
    rw [List.append_assoc, List.take_append_drop]
    exact h.still hnone
  case alone => exact fun g g' hg hg' => (hself g hg).trans (hself g' hg').symm

/-- The task that had bytes taken goes on, with the buffer trimmed. -/
theorem Bytes.trim (h : Bytes s) (hf : s.pc f = .sending c m k)
    (hpc : t.pc = update s.pc f q) (hq : q.sends = false) (hw : t.written = s.written)
    (ha : t.accepted = s.accepted) (hb : t.buf = s.buf.drop k) : Bytes t := by
  have hnone : ∀ g, (t.pc g).sends = false := by
    intro g
    by_cases hgf : g = f
    · rw [hpc, hgf, update_self]
      exact hq
    · rw [hpc, update_of_ne hgf]
      by_contra hg
      exact hgf (h.alone g f (by simpa using hg) (by rw [hf]; rfl))
  refine ⟨fun _ => ?_, fun g c m k hg => ?_, fun g _ hg => ?_⟩
  · rw [hw, ha, hb]
    exact (h.taken f c m k hf).2.1
  · have hx := hnone g
    rw [hg] at hx
    cases hx
  · exact absurd ((hnone g).symm.trans hg) (by rintro ⟨⟩)

/-! ## The calls -/

theorem Calls.lt (h : Calls tls n s) (hf : s.pc f ≠ .idle) : f < n := by
  by_contra hge
  exact hf (h.bound f (by omega))

/-- A task goes on in its call, or returns from it. -/
theorem Calls.goto (h : Calls tls n s) (hf : f < n) (hpc : t.pc = update s.pc f q)
    (hplain : tls = false → q.sends = false)
    (hw : s.written.length ≤ t.written.length) (ha : s.accepted.length ≤ t.accepted.length)
    (hmark : ∀ m, q.mark = some m → m ≤ t.written.length)
    (hret : ∀ c m, q = .returned c m → c ≠ .write → m ≤ t.accepted.length)
    (hclosed : s.closed = true → t.closed = true)
    (hshut : t.shut = s.shut ∨ (s.pc f).closing = true)
    (hq : q.closing = true → t.closed = true ∧ t.shut = false ∧
      ((s.pc f).closing = true ∨ s.closed = false)) : Calls tls n t := by
  have hself : t.pc f = q := by rw [hpc, update_self]
  have hother : ∀ g, g ≠ f → t.pc g = s.pc g := fun g hg => by
    rw [hpc, update_of_ne hg]
  constructor
  case bound =>
    intro g hg
    rw [hother g (by omega)]
    exact h.bound g hg
  case plain =>
    intro htls g
    by_cases hgf : g = f
    · rw [hgf, hself]
      exact hplain htls
    · rw [hother g hgf]
      exact h.plain htls g
  case marks =>
    intro g m hg
    by_cases hgf : g = f
    · rw [hgf, hself] at hg
      exact hmark m hg
    · rw [hother g hgf] at hg
      exact Nat.le_trans (h.marks g m hg) hw
  case returned =>
    intro g c m hg hc
    by_cases hgf : g = f
    · rw [hgf, hself] at hg
      exact hret c m hg hc
    · rw [hother g hgf] at hg
      exact Nat.le_trans (h.returned g c m hg hc) ha
  case closing =>
    intro g hg
    by_cases hgf : g = f
    · rw [hgf, hself] at hg
      exact ⟨(hq hg).1, (hq hg).2.1⟩
    · rw [hother g hgf] at hg
      obtain ⟨hc, hs⟩ := h.closing g hg
      refine ⟨hclosed hc, ?_⟩
      rcases hshut with hshut | hclosing
      · rw [hshut]
        exact hs
      · exact absurd (h.once g f hg hclosing) hgf
  case once =>
    have hwas : ∀ g, g ≠ f → (t.pc g).closing = true → q.closing = true → False := by
      intro g hgf hg hqc
      rw [hother g hgf] at hg
      rcases (hq hqc).2.2 with hx | hx
      · exact hgf (h.once g f hg hx)
      · exact absurd ((h.closing g hg).1.symm.trans hx) (by rintro ⟨⟩)
    intro g g' hg hg'
    by_cases hgf : g = f
    · by_cases hgf' : g' = f
      · rw [hgf, hgf']
      · rw [hgf, hself] at hg
        exact (hwas g' hgf' hg' hg).elim
    · by_cases hgf' : g' = f
      · rw [hgf', hself] at hg'
        exact (hwas g hgf hg hg').elim
      · rw [hother g hgf] at hg
        rw [hother g' hgf'] at hg'
        exact h.once g g' hg hg'
  case shut =>
    intro hx
    rcases hshut with hshut | hclosing
    · exact hclosed (h.shut (hshut ▸ hx))
    · exact hclosed (h.closing f hclosing).1

theorem rests_plain (h : q.rests = true) : q.sends = false ∧ q.mark = none := by
  cases q <;> first | exact ⟨rfl, rfl⟩ | cases h

theorem stall_mark (h : (c.stall m).mark = some k) : k = m := by
  cases c with
  | write => cases h
  | drain | close =>
    cases h
    rfl

theorem stall_sends (c : Call) (m : ℕ) : (c.stall m).sends = false := by
  cases c <;> rfl

theorem stall_returned {c' : Call} {m' : ℕ} (h : c.stall m = .returned c' m') : c' = .write := by
  cases c <;> cases h
  rfl

/-- A flush that waits goes on with the same call. -/
theorem Inv.stall (hi : Inv tls n s) (hf : s.pc f ≠ .idle)
    (hm : m ≤ s.written.length) (hclosing : c = .close → (s.pc f).closing = true)
    (hb : Bytes (s.goto f (c.stall m))) : Inv tls n (s.goto f (c.stall m)) := by
  refine ⟨hb, hi.calls.goto (hi.calls.lt hf) rfl (fun _ => stall_sends c m) (Nat.le_refl _)
    (Nat.le_refl _) (fun k hk => stall_mark hk ▸ hm) ?_ id (.inl rfl) fun hq => ?_⟩
  · exact fun c' m' h hc => absurd (stall_returned h) hc
  · cases c with
    | write | drain => cases hq
    | close =>
      have hcl := hclosing rfl
      exact ⟨(hi.calls.closing f hcl).1, (hi.calls.closing f hcl).2, .inl hcl⟩

/-- A call begins: `c` flushes what is there and the bytes of the call. -/
theorem Inv.begin (hi : Inv tls n s) (hf : f < n) (hrests : (s.pc f).rests = true)
    (data : List B) (hc : c ≠ .close) :
    Inv tls n ((s.extend data).goto f (.flushing c s.written.length)) := by
  have hw : s.written.length ≤ (s.written ++ data).length := by simp
  refine ⟨hi.bytes.goto data rfl rfl rfl rfl (rests_plain hrests).1 rfl (.inl rfl), ?_⟩
  refine hi.calls.goto hf rfl (fun _ => rfl) hw (Nat.le_refl _) ?_ (by rintro _ _ ⟨⟩) id (.inl rfl) ?_
  · rintro m ⟨⟩
    exact hw
  · cases c with
    | close => exact absurd rfl hc
    | write | drain => rintro ⟨⟩

theorem Inv.take (hi : Inv tls n s) (hf : s.pc f ≠ .idle)
    (hmark : (s.pc f).mark = some m) (hclosing : c = .close → (s.pc f).closing = true)
    (htls : tls = true) (hshut : s.shut = false) (hk : k ≤ s.buf.length)
    (hnone : ∀ g, (s.pc g).sends = false) : Inv tls n (s.take f c m k) := by
  refine ⟨hi.bytes.take hnone hk hshut, ?_⟩
  refine hi.calls.goto (hi.calls.lt hf) rfl (fun h => absurd (h.symm.trans htls) (by rintro ⟨⟩))
    (Nat.le_refl _) ?_ ?_ (by rintro _ _ ⟨⟩) id (.inl rfl) ?_
  · show s.accepted.length ≤ (s.accepted ++ s.buf.take k).length
    simp
  · rintro m' ⟨⟩
    exact hi.calls.marks f m hmark
  · cases c with
    | write | drain => rintro ⟨⟩
    | close =>
      have hcl := hclosing rfl
      exact fun _ => ⟨(hi.calls.closing f hcl).1, hshut, .inl hcl⟩

/-- A task moves on in its flush without any byte. -/
theorem Inv.walk (hi : Inv tls n s) (hf : s.pc f ≠ .idle) (hold : (s.pc f).sends = false)
    (hnew : q.sends = false) (hret : ∀ c m, q ≠ .returned c m) (hmark : q.mark = (s.pc f).mark)
    (hclosing : q.closing = true → (s.pc f).closing = true) : Inv tls n (s.goto f q) := by
  refine ⟨hi.bytes.goto [] rfl (by simp [State.goto]) (by simp [State.goto]) rfl hold hnew
    (.inl rfl), ?_⟩
  refine hi.calls.goto (hi.calls.lt hf) rfl (fun _ => hnew) (Nat.le_refl _) (Nat.le_refl _) ?_ ?_
    id (.inl rfl) ?_
  · exact fun m hm => hi.calls.marks f m (hmark ▸ hm)
  · exact fun c m h => absurd h (hret c m)
  · intro hq
    have hcl := hclosing hq
    exact ⟨(hi.calls.closing f hcl).1, (hi.calls.closing f hcl).2, .inl hcl⟩

/-- The flush is over: what was written before the call is accepted. -/
theorem Inv.leave (hi : Inv tls n s) (hf : s.pc f = .flushing c m)
    (hbuf : s.buf = []) : Inv tls n (s.leave f c m) := by
  have hall := hi.bytes.all_accepted hbuf
  have hm := hi.calls.marks f m (by rw [hf]; rfl)
  refine ⟨hi.bytes.goto [] rfl (by simp [State.leave, State.goto])
    (by simp [State.leave, State.goto]) rfl (by rw [hf]; rfl) rfl (.inr hbuf), ?_⟩
  refine hi.calls.goto (hi.calls.lt (by rw [hf]; rintro ⟨⟩)) rfl (fun _ => rfl) (Nat.le_refl _)
    (Nat.le_refl _) (by rintro _ ⟨⟩) ?_ id ?_ (by rintro ⟨⟩)
  · rintro c' m' ⟨⟩ -
    show m ≤ s.accepted.length
    rw [← hall]
    exact hm
  · cases c with
    | write | drain => exact .inl (by simp [State.leave, State.goto])
    | close => exact .inr (by rw [hf]; rfl)

/-- A `send` on the closed socket. -/
theorem Inv.error (hi : Inv tls n s) (hf : s.pc f ≠ .idle)
    (hshut : s.shut = true) (hclosing : c = .close → (s.pc f).closing = true)
    (hb : Bytes (s.goto f .raised)) : Inv tls n (s.error f c m) := by
  cases c with
  | close =>
    exact absurd (hshut.symm.trans (hi.calls.closing f (hclosing rfl)).2) (by rintro ⟨⟩)
  | write | drain =>
    exact ⟨hb, hi.calls.goto (hi.calls.lt hf) rfl (fun _ => rfl) (Nat.le_refl _) (Nat.le_refl _)
      (by intros; contradiction) (by intros; contradiction) id (.inl rfl) (by intros; contradiction)⟩

theorem Bytes.still_goto (h : Bytes s) (hold : (s.pc f).sends = false) (hnew : q.sends = false) :
    Bytes (s.goto f q) :=
  h.goto [] rfl (by simp [State.goto]) (by simp [State.goto]) rfl hold hnew (.inl rfl)

theorem Inv.step {a : Action B} (hi : Inv tls n s) (hok : overlaps n s a = false)
    (hs : step tls n s a = some t) : Inv tls n t := by
  cases a with
  | write f data =>
    simp only [StreamWriter.step] at hs
    split at hs
    case isFalse => cases hs
    case isTrue hf =>
      split at hs <;> cases hs
      case isTrue =>
        refine ⟨hi.bytes.still_goto (rests_plain hf.2).1 rfl, ?_⟩
        exact hi.calls.goto hf.1 rfl (fun _ => rfl) (Nat.le_refl _) (Nat.le_refl _) (by rintro _ ⟨⟩) (by rintro _ _ ⟨⟩) id
          (.inl rfl) (by rintro ⟨⟩)
      case isFalse => exact hi.begin hf.1 hf.2 data (by rintro ⟨⟩)
  | writelines f lines =>
    simp only [StreamWriter.step] at hs
    split at hs <;> cases hs
    next hf => exact hi.begin hf.1 hf.2 lines.flatten (by rintro ⟨⟩)
  | drain f =>
    simp only [StreamWriter.step] at hs
    split at hs <;> cases hs
    next hf =>
    refine ⟨hi.bytes.still_goto (rests_plain hf.2).1 rfl, ?_⟩
    refine hi.calls.goto hf.1 rfl (fun _ => rfl) (Nat.le_refl _) (Nat.le_refl _) ?_ (by rintro _ _ ⟨⟩) id
      (.inl rfl) (by rintro ⟨⟩)
    rintro m ⟨⟩
    exact Nat.le_refl _
  | close f =>
    simp only [StreamWriter.step] at hs
    split at hs
    case isFalse => cases hs
    case isTrue hf =>
      split at hs <;> cases hs
      case isTrue hclosed =>
        -- an earlier `close` has left nothing in the buffer
        have hbuf : s.buf = [] := by simpa [overlaps, hclosed] using hok
        have hall := hi.bytes.all_accepted hbuf
        refine ⟨hi.bytes.still_goto (rests_plain hf.2).1 rfl, ?_⟩
        refine hi.calls.goto hf.1 rfl (fun _ => rfl) (Nat.le_refl _) (Nat.le_refl _) (by rintro _ ⟨⟩) ?_ id
          (.inl rfl) (by rintro ⟨⟩)
        rintro c m ⟨⟩ -
        rw [hall]
        exact Nat.le_refl _
      case isFalse hopen =>
        refine ⟨hi.bytes.goto [] rfl (by simp [State.goto]) (by simp [State.goto]) rfl
          (rests_plain hf.2).1 rfl (.inl rfl), ?_⟩
        refine hi.calls.goto hf.1 rfl (fun _ => rfl) (Nat.le_refl _) (Nat.le_refl _) ?_ (by rintro _ _ ⟨⟩)
          (fun _ => rfl) (.inl rfl) fun _ => ⟨rfl, ?_, .inr (by simpa using hopen)⟩
        · rintro m ⟨⟩
          exact Nat.le_refl _
        · show s.shut = false
          by_contra hx
          exact hopen (hi.calls.shut (by simpa using hx))
  | send f k =>
    simp only [StreamWriter.step] at hs
    split at hs
    case h_2 => cases hs
    case h_1 c m hf =>
      split at hs <;> cases hs
      next hk =>
      have hnone := hi.calls.plain hk.1
      have hlen : s.accepted.length ≤ (s.accepted ++ s.buf.take k).length := by simp
      constructor
      case bytes =>
        refine ⟨fun _ => ?_, fun g c' m' k' hg => ?_, fun g _ hg => ?_⟩
        · show s.written = (s.accepted ++ s.buf.take k) ++ s.buf.drop k
          rw [List.append_assoc, List.take_append_drop]
          exact hi.bytes.still hnone
        · have hx := hnone g
          rw [show s.pc g = _ from hg] at hx
          cases hx
        · exact absurd ((hnone g).symm.trans hg) (by rintro ⟨⟩)
      case calls =>
        refine ⟨hi.calls.bound, hi.calls.plain, hi.calls.marks, fun g c' m' hg hc => ?_,
          hi.calls.closing, hi.calls.once, hi.calls.shut⟩
        exact Nat.le_trans (hi.calls.returned g c' m' hg hc) hlen
  | block f =>
    simp only [StreamWriter.step] at hs
    split at hs
    case h_2 => cases hs
    case h_1 c m hf =>
      split at hs <;> cases hs
      refine hi.stall (by rw [hf]; rintro ⟨⟩) (hi.calls.marks f m (by rw [hf]; rfl)) ?_ ?_
      · rintro rfl
        rw [hf]
        rfl
      · exact hi.bytes.still_goto (by rw [hf]; rfl) (stall_sends c m)
  | take f k =>
    have hnone : ∀ g, (s.pc g).sends = false := by
      intro g
      by_cases hg : g < n
      · simp only [overlaps, List.any_eq_false, List.mem_range, Bool.not_eq_true] at hok
        exact hok g hg
      · rw [hi.calls.bound g (by omega)]
        rfl
    simp only [StreamWriter.step] at hs
    split at hs
    case h_1 c m hf =>
      split at hs <;> cases hs
      next hk =>
      refine hi.take (by rw [hf]; rintro ⟨⟩) (by rw [hf]; rfl) ?_ hk.1 hk.2.1 hk.2.2.1 hnone
      rintro rfl
      rw [hf]
      rfl
    case h_2 c m hf =>
      split at hs <;> cases hs
      next hk =>
      refine hi.take (by rw [hf]; rintro ⟨⟩) (by rw [hf]; rfl) ?_ hk.1 hk.2.1 hk.2.2.1 hnone
      rintro rfl
      rw [hf]
      rfl
    case h_3 => cases hs
  | want f =>
    simp only [StreamWriter.step] at hs
    split at hs
    case h_1 c m hf =>
      split at hs <;> cases hs
      refine hi.walk (by rw [hf]; rintro ⟨⟩) (by rw [hf]; rfl) rfl (by rintro _ _ ⟨⟩) (by rw [hf]; rfl) ?_
      rw [hf]
      cases c <;> exact id
    case h_2 c m hf =>
      split at hs <;> cases hs
      exact hi.walk (by rw [hf]; rintro ⟨⟩) (by rw [hf]; rfl) rfl (by rintro _ _ ⟨⟩) (by rw [hf])
        (by rw [hf]; exact id)
    case h_3 => cases hs
  | trim f =>
    simp only [StreamWriter.step] at hs
    split at hs
    case h_2 => cases hs
    case h_1 c m k hf =>
      have hm := hi.calls.marks f m (by rw [hf]; rfl)
      have hclosing : c = .close → (s.pc f).closing = true := by
        rintro rfl
        rw [hf]
        rfl
      split at hs <;> cases hs
      case isTrue hk =>
        refine hi.stall (by rw [hf]; rintro ⟨⟩) hm hclosing ?_
        refine hi.bytes.trim hf rfl (stall_sends c m) rfl rfl ?_
        rw [hk]
        rfl
      case isFalse =>
        refine ⟨hi.bytes.trim hf rfl rfl rfl rfl rfl, ?_⟩
        refine hi.calls.goto (hi.calls.lt (by rw [hf]; rintro ⟨⟩)) rfl (fun _ => rfl) (Nat.le_refl _)
          (Nat.le_refl _) ?_ (by rintro _ _ ⟨⟩) id (.inl rfl) fun hq => ?_
        · rintro m' ⟨⟩
          exact hm
        · cases c with
          | write | drain => cases hq
          | close =>
            have hcl := hclosing rfl
            exact ⟨(hi.calls.closing f hcl).1, (hi.calls.closing f hcl).2, .inl hcl⟩
  | ready f =>
    simp only [StreamWriter.step] at hs
    split at hs <;> cases hs
    next c m hf =>
    refine hi.walk (by rw [hf]; rintro ⟨⟩) (by rw [hf]; rfl) rfl (by rintro _ _ ⟨⟩) (by rw [hf]; rfl) ?_
    rw [hf]
    cases c <;> exact id
  | exit f =>
    simp only [StreamWriter.step] at hs
    split at hs
    case h_2 => cases hs
    case h_1 c m hf =>
      split at hs <;> cases hs
      next hbuf => exact hi.leave hf hbuf
  | fail f =>
    simp only [StreamWriter.step] at hs
    split at hs
    case h_1 c m hf =>
      split at hs <;> cases hs
      next hk =>
      refine hi.error (by rw [hf]; rintro ⟨⟩) hk.1 ?_ (hi.bytes.still_goto (by rw [hf]; rfl) rfl)
      rintro rfl
      rw [hf]
      rfl
    case h_2 c m hf =>
      split at hs <;> cases hs
      next hk =>
      refine hi.error (by rw [hf]; rintro ⟨⟩) hk ?_ (hi.bytes.still_goto (by rw [hf]; rfl) rfl)
      rintro rfl
      rw [hf]
      rfl
    case h_3 c m k hf =>
      split at hs <;> cases hs
      next hk =>
      -- nothing was taken from an empty buffer
      have hzero := (hi.bytes.taken f c m k hf).2.2 hk
      refine hi.error (by rw [hf]; rintro ⟨⟩) hk ?_ (hi.bytes.trim hf rfl rfl rfl rfl ?_)
      · rintro rfl
        rw [hf]
        rfl
      · rw [hzero]
        rfl
    case h_4 => cases hs

end Steps

/-- **`StreamWriter`** conserves the bytes in every run in which, over TLS, the SSL object takes
none while another task has yet to trim the buffer, and in which no `close` finds the writer
closed with bytes left. -/
theorem reachable_conserves {tls : Bool} {n : ℕ} {s : State B}
    (hr : Reachable (soundSystem tls n) s) : Conserves s := by
  have hi : Inv tls n s := by
    refine Reachable.invariant ?_ ?_ hr
    · rintro _ rfl
      exact inv_init tls n
    · intro u a t _ hi hs
      obtain ⟨hok, hs⟩ := System.restrict_step.mp hs
      exact hi.step hok hs
  exact ⟨hi.bytes.conserves, hi.calls.returned⟩

/-- Over TLS the SSL object takes the bytes of two tasks in turn. -/
def inTurn : List (Action ℕ) :=
  [.write 0 [1, 2, 3], .take 0 2, .trim 0, .want 0, .take 0 1, .trim 0, .exit 0, .write 1 [4],
    .take 1 1, .trim 1, .exit 1, .drain 0, .exit 0]

theorem reachable_conserves_inTurn :
    ∃ s, (soundSystem true 2).run init inTurn = some s ∧ s.accepted = [1, 2, 3, 4] ∧
      s.pc 0 = .returned .drain 4 ∧ Conserves s := by
  have hrun : ((soundSystem true 2).run init inTurn).any (fun s =>
      s.accepted = [1, 2, 3, 4] ∧ s.pc 0 = .returned .drain 4) = true := by decide +kernel
  obtain ⟨s, hs, h⟩ := (Option.any_eq_true _ _).mp hrun
  obtain ⟨hacc, hpc⟩ := of_decide_eq_true h
  exact ⟨s, hs, hacc, hpc, reachable_conserves (reachable_of_run (soundSystem true 2) inTurn rfl hs)⟩

/-- Over TLS task 0 is parked in the `send` of a `write`, and task 1 drains. -/
def overlapRun : List (Action ℕ) := [.write 0 [1, 2], .take 0 2, .drain 1, .take 1 2]

/-- Over a plain socket that takes nothing, task 1 is in `close`, and task 2 calls it too. -/
def closeRun : List (Action ℕ) :=
  [.write 0 [1], .block 0, .close 1, .block 1, .close 2]

/-- The bytes are accepted twice; a `close` returns and none is accepted. -/
theorem overlap_breaks_writer :
    (∃ s, (system true 2).run init overlapRun = some s ∧ s.written = [1, 2] ∧
      s.accepted = [1, 2, 1, 2] ∧ ¬ Conserves s) ∧
    ∃ s, (system false 3).run init closeRun = some s ∧ s.written = [1] ∧ s.accepted = [] ∧
      s.pc 2 = .returned .close 1 ∧ ¬ Conserves s := by
  refine ⟨⟨_, rfl, rfl, rfl, fun h => ?_⟩, ⟨_, rfl, rfl, rfl, rfl, fun h => ?_⟩⟩
  · exact absurd h.order.length_le (by decide)
  · exact absurd (h.returned 2 .close 1 rfl (by rintro ⟨⟩)) (by decide)

end Stackweave.Aio.StreamWriter
