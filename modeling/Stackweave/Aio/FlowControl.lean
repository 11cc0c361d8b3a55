import Mathlib.Data.Int.Order.Basic
import Mathlib.Tactic.Common
import Stackweave.Transition

/-!
# Write flow control (`aio/transport_stream.py`, `aio/transport_stream_io.py`, `aio/pipes.py`)

A transport tells its protocol to pause when the write buffer grows over the high mark and to resume
when it has shrunk to the low one. `_StreamTransport` and `_WritePipeTransport` do so each in a
copy of the code of its own. A callback of the protocol is in progress for as long as it likes, and
anything may be called meanwhile, also from within it.

* `marks_kept`: what holds in the runs in which the marks of a pipe are changed only where the
  change makes no difference to the protocol.
* `pipe_marks_missed`: a pipe whose marks are changed otherwise.
-/

namespace Stackweave.Aio.FlowControl

open Transition

/-- `plain` says that the socket is not a TLS one. -/
inductive Kind
  | stream (plain : Bool)
  | pipe
  deriving DecidableEq

inductive FlowCall
  | pause
  | resume
  deriving DecidableEq

/-- The callbacks in progress, by what follows them. -/
inductive Frame
  /-- `pause_writing` in `write`, and `resume_writing` -/
  | plain
  /-- `pause_writing` in `set_write_buffer_limits` -/
  | limits
  deriving DecidableEq

/-- `closed` is `_closed` of a stream and `_closing` of a pipe, and `eof` says that `write_eof` was
called. `calls` are the calls of the protocol. -/
structure State where
  kind : Kind
  buf : ℕ
  high : ℤ
  low : ℤ
  paused : Bool
  closed : Bool
  eof : Bool
  frames : List Frame
  calls : List FlowCall

def start (kind : Kind) : State where
  kind := kind
  buf := 0
  high := 64 * 1024
  low := 16 * 1024
  paused := false
  closed := false
  eof := false
  frames := []
  calls := []

/-- What a send or a write of the descriptor does. -/
inductive Sent
  | some (n : ℕ)
  | blocked
  | error

namespace State

variable (s : State)

/-- `is_closing` -/
def closing : Bool :=
  match s.kind with
  | .stream _ => s.closed
  | .pipe => s.closed || s.eof

/-- `_maybe_pause_writing`, and the same lines in `write` of a pipe. -/
def maybePause (frame : Frame) : State :=
  if s.paused = false ∧ s.high < s.buf then
    { s with paused := true, calls := s.calls ++ [.pause], frames := frame :: s.frames }
  else s

/-- `_maybe_resume_writing`, `_maybe_resume` -/
def maybeResume : State :=
  if s.paused = true ∧ (s.buf : ℤ) ≤ s.low then
    { s with paused := false, calls := s.calls ++ [.resume], frames := .plain :: s.frames }
  else s

/-- `close` of a stream, and `_finish` of a pipe. -/
def finish : State := { s with closed := true }

def enqueue (n : ℕ) : State := { s with buf := s.buf + n }

/-- `write`, with the outcome of the send that is tried when nothing is queued. -/
def write (data : ℕ) (sent : Sent) : State :=
  match s.kind with
  | .stream plain =>
    -- behind `write_eof` it raises
    if s.eof ∨ s.closed ∨ data = 0 then s
    else if s.buf = 0 ∧ plain = true then
      match sent with
      | .error => s.finish
      | .blocked => (s.enqueue data).maybePause .plain
      | .some n => if data ≤ n then s else (s.enqueue (data - n)).maybePause .plain
    else (s.enqueue data).maybePause .plain
  | .pipe =>
    if s.eof ∨ s.closed ∨ data = 0 then s
    else if s.buf = 0 then
      match sent with
      | .error | .blocked => (s.enqueue data).maybePause .plain
      | .some n => if data ≤ n then s else (s.enqueue (data - n)).maybePause .plain
    else (s.enqueue data).maybePause .plain

/-- A drained pipe is closed after `write_eof`. -/
def drained : State :=
  match s.kind with
  | .stream _ => s
  | .pipe => if s.buf = 0 ∧ s.eof = true then s.finish else s

def shrink (n : ℕ) : State := { s with buf := s.buf - n }

/-- One send of the drain, `_drain_step` and a turn of `_drain_loop`. -/
def drain (sent : Sent) : State :=
  match sent with
  | .blocked => s
  | .error => s.finish
  | .some n => if n = 0 then s.drained else (s.shrink (min n 262144)).maybeResume.drained

/-- The marks for the arguments of `set_write_buffer_limits`. -/
def marks (high low : Option ℤ) : ℤ × ℤ :=
  let high := high.getD (match low with
    | some low => 4 * low
    | none => 64 * 1024)
  (high, low.getD (high / 4))

def setMarks (m : ℤ × ℤ) : State := { s with high := m.1, low := m.2 }

/-- `set_write_buffer_limits`. That of a pipe does not look at the buffer. -/
def setWriteBufferLimits (high low : Option ℤ) : State :=
  let m := marks high low
  match s.kind with
  | .stream _ =>
    if m.2 ≤ m.1 ∧ 0 ≤ m.2 then
      -- where `pause_writing` is called the second look comes when it is over
      if s.paused = false ∧ m.1 < s.buf then (s.setMarks m).maybePause .limits
      else (s.setMarks m).maybeResume
    else s
  | .pipe => s.setMarks m

/-- `write_eof`, which is also `close` and `abort` of a pipe; `idle` says that no fiber drains it. -/
def writeEof (idle : Bool) : State :=
  match s.kind with
  | .stream _ => if s.closed then s else { s with eof := true }
  | .pipe =>
    if s.eof then s
    else if idle = true ∧ s.buf = 0 then { s with eof := true }.finish
    else { s with eof := true }

/-- `abort` of a stream drops what is queued. -/
def abortStream : State := { s with buf := 0, closed := true }

end State

inductive Action
  | write (data : ℕ) (sent : Sent)
  | drain (sent : Sent)
  | setWriteBufferLimits (high low : Option ℤ)
  | writeEof (idle : Bool)
  | close (idle : Bool)
  | abort (idle : Bool)
  /-- the peer of a pipe has gone, or its wait fails -/
  | hangup
  /-- a callback returns or raises -/
  | returns (frame : Frame)

def step (s : State) : Action → Option State
  | .write data sent => some (s.write data sent)
  -- over TLS the send may have begun before a `close` or an `abort`
  | .drain sent => some (s.drain sent)
  | .setWriteBufferLimits high low => some (s.setWriteBufferLimits high low)
  | .writeEof idle => some (s.writeEof idle)
  | .close idle =>
    match s.kind with
    | .stream _ => some s.finish
    | .pipe => some (s.writeEof idle)
  | .abort idle =>
    match s.kind with
    | .stream _ => some s.abortStream
    | .pipe => some (s.writeEof idle)
  | .hangup =>
    match s.kind with
    | .stream _ => none
    | .pipe => some s.finish
  | .returns frame =>
    if frame ∈ s.frames then
      let t := { s with frames := s.frames.erase frame }
      match frame with
      | .plain => some t
      | .limits => some t.maybeResume
    else none

def system (kind : Kind) : System State Action where
  init s := s = start kind
  step := step

/-! ## What it promises -/

/-- The calls alternate, beginning with `pause_writing`. Unless the transport is closing, a buffer over
the high mark finds the protocol paused, and a paused protocol the buffer over the low mark. -/
structure Sound (s : State) : Prop where
  alternate : ∀ i c, s.calls[i]? = some c → c = if i % 2 = 0 then .pause else .resume
  pauses : s.closing = false → s.high < s.buf → s.paused = true
  resumes : s.closing = false → s.paused = true → s.low < s.buf

/-- The new marks of a pipe are in order, and under them the protocol is to stay as it is. -/
def Fits (s : State) : Action → Prop
  | .setWriteBufferLimits high low => s.kind = .pipe →
    (State.marks high low).2 ≤ (State.marks high low).1 ∧
    (s.paused = false → s.buf ≤ (State.marks high low).1) ∧
    (s.paused = true → (State.marks high low).2 < s.buf)
  | _ => True

instance (s : State) (a : Action) : Decidable (Fits s a) := by
  cases a <;> unfold Fits <;> infer_instance

/-! ## The invariant -/

/-- What holds whether or not the transport is closing. -/
structure Core (s : State) : Prop where
  alternate : ∀ i c, s.calls[i]? = some c → c = if i % 2 = 0 then .pause else .resume
  parity : s.paused = decide (s.calls.length % 2 = 1)
  order : s.low ≤ s.high

structure Inv (s : State) : Prop extends Core s where
  pauses : s.closing = false → s.high < s.buf → s.paused = true
  resumes : s.closing = false → s.paused = true → s.low < s.buf

variable {s t : State}

theorem inv_start (kind : Kind) : Inv (start kind) where
  alternate i c h := by simp [start] at h
  parity := rfl
  order := by simp [start]
  pauses _ h := by simp [start] at h
  resumes _ h := by cases h

theorem alternate_append {cs : List FlowCall} {d : FlowCall}
    (h : ∀ i c, cs[i]? = some c → c = if i % 2 = 0 then .pause else .resume)
    (hd : d = if cs.length % 2 = 0 then .pause else .resume) :
    ∀ i c, (cs ++ [d])[i]? = some c → c = if i % 2 = 0 then .pause else .resume := by
  intro i c hi
  rcases Nat.lt_trichotomy i cs.length with hlt | rfl | hgt
  · rw [List.getElem?_append_left hlt] at hi
    exact h i c hi
  · rw [List.getElem?_concat_length] at hi
    obtain rfl := Option.some.inj hi
    exact hd
  · rw [List.getElem?_eq_none (by simp; omega)] at hi
    cases hi

theorem Core.maybePause (h : Core s) (frame : Frame) : Core (s.maybePause frame) := by
  unfold State.maybePause
  split
  · rename_i hc
    have hlen : s.calls.length % 2 = 0 := by
      have hp := h.parity
      rw [hc.1] at hp
      have := of_decide_eq_false hp.symm
      omega
    refine ⟨alternate_append h.alternate (by rw [if_pos hlen]), ?_, h.order⟩
    have hodd : (s.calls.length + 1) % 2 = 1 := by omega
    simp [hodd]
  · exact h

theorem Core.maybeResume (h : Core s) : Core s.maybeResume := by
  unfold State.maybeResume
  split
  · rename_i hc
    have hlen : s.calls.length % 2 = 1 := by
      have hp := h.parity
      rw [hc.1] at hp
      exact of_decide_eq_true hp.symm
    refine ⟨alternate_append h.alternate (by rw [if_neg (by omega)]), ?_, h.order⟩
    have heven : (s.calls.length + 1) % 2 = 0 := by omega
    simp [heven]
  · exact h

/-- The look at the high mark. -/
theorem Inv.of_maybePause (h : Core s) (frame : Frame)
    (hresumes : s.closing = false → s.paused = true → s.low < s.buf) : Inv (s.maybePause frame) := by
  refine ⟨h.maybePause frame, ?_, ?_⟩
  · unfold State.maybePause
    split
    · exact fun _ _ => rfl
    · rename_i hc
      intro _ hhigh
      by_contra hp
      exact hc ⟨by simpa using hp, hhigh⟩
  · unfold State.maybePause
    split
    · rename_i hc
      exact fun _ _ => lt_of_le_of_lt h.order hc.2
    · exact hresumes

/-- The look at the low mark. -/
theorem Inv.of_maybeResume (h : Core s)
    (hpauses : s.closing = false → s.high < s.buf → s.paused = true) : Inv s.maybeResume := by
  refine ⟨h.maybeResume, ?_, ?_⟩
  · unfold State.maybeResume
    split
    · rename_i hc
      intro _ hhigh
      exact absurd (lt_of_le_of_lt h.order hhigh) (not_lt.mpr hc.2)
    · exact hpauses
  · unfold State.maybeResume
    split
    · exact fun _ hp => absurd hp (by rintro ⟨⟩)
    · rename_i hc
      intro _ hp
      by_contra hlow
      exact hc ⟨hp, not_lt.mp hlow⟩

/-! ## The steps -/

theorem Inv.finish (h : Inv s) : Inv s.finish := by
  have hclosing : s.finish.closing = true := by
    unfold State.closing State.finish
    split <;> rfl
  refine ⟨⟨h.alternate, h.parity, h.order⟩, fun hc => ?_, fun hc => ?_⟩
  · rw [hclosing] at hc
    cases hc
  · rw [hclosing] at hc
    cases hc

/-- Bytes are queued, and the high mark is looked at. -/
theorem Inv.enqueue (h : Inv s) (n : ℕ) : Inv ((s.enqueue n).maybePause .plain) := by
  have hcore : Core (s.enqueue n) := ⟨h.alternate, h.parity, h.order⟩
  refine .of_maybePause hcore _ fun hc hp => ?_
  have hlow := h.resumes hc hp
  simp only [State.enqueue]
  omega

theorem Inv.write (h : Inv s) (data : ℕ) (sent : Sent) : Inv (s.write data sent) := by
  unfold State.write
  split
  · split
    · exact h
    · split
      · split
        · exact h.finish
        · exact h.enqueue _
        · split
          · exact h
          · exact h.enqueue _
      · exact h.enqueue _
  · split
    · exact h
    · split
      · split
        · exact h.enqueue _
        · exact h.enqueue _
        · split
          · exact h
          · exact h.enqueue _
      · exact h.enqueue _

theorem Inv.drained (h : Inv s) : Inv s.drained := by
  unfold State.drained
  split
  · exact h
  · split
    · exact h.finish
    · exact h

theorem Inv.drain (h : Inv s) (sent : Sent) : Inv (s.drain sent) := by
  unfold State.drain
  split
  · exact h
  · exact h.finish
  · split
    · exact h.drained
    · refine Inv.drained (.of_maybeResume ⟨h.alternate, h.parity, h.order⟩ fun hc hhigh => ?_)
      refine h.pauses hc ?_
      simp only [State.shrink] at hhigh
      omega

theorem Inv.setWriteBufferLimits (h : Inv s) {high low : Option ℤ}
    (hfits : Fits s (.setWriteBufferLimits high low)) : Inv (s.setWriteBufferLimits high low) := by
  unfold State.setWriteBufferLimits
  simp only
  split
  · split
    · rename_i hm
      have hcore : Core (s.setMarks (State.marks high low)) := ⟨h.alternate, h.parity, hm.1⟩
      split
      · rename_i hc
        refine .of_maybePause hcore _ fun _ hp => ?_
        have hp' : s.paused = true := hp
        rw [hc.1] at hp'
        cases hp'
      · rename_i hc
        refine .of_maybeResume hcore fun _ hhigh => ?_
        by_contra hp
        exact hc ⟨by simpa [State.setMarks] using hp, hhigh⟩
    · exact h
  · rename_i hkind
    obtain ⟨hord, hpause, hresume⟩ := hfits hkind
    refine ⟨⟨h.alternate, h.parity, hord⟩, fun _ hhigh => ?_, fun _ hp => hresume hp⟩
    by_contra hp
    exact absurd hhigh (not_lt.mpr (hpause (by simpa [State.setMarks] using hp)))

theorem Inv.writeEof (h : Inv s) (idle : Bool) : Inv (s.writeEof idle) := by
  unfold State.writeEof
  split
  · rename_i plain hkind
    split
    · exact h
    · have hclosing : State.closing { s with eof := true } = s.closing := by
        simp [State.closing, hkind]
      exact ⟨⟨h.alternate, h.parity, h.order⟩, fun hc => h.pauses (hclosing ▸ hc),
        fun hc => h.resumes (hclosing ▸ hc)⟩
  · rename_i hkind
    have heof : Inv { s with eof := true } := by
      have hclosing : State.closing { s with eof := true } = true := by
        simp [State.closing, hkind]
      refine ⟨⟨h.alternate, h.parity, h.order⟩, fun hc => ?_, fun hc => ?_⟩
      · rw [hclosing] at hc
        cases hc
      · rw [hclosing] at hc
        cases hc
    split
    · exact h
    · split
      · exact heof.finish
      · exact heof

theorem Inv.step {a : Action} (h : Inv s) (hfits : Fits s a) (hs : step s a = some t) : Inv t := by
  cases a with
  | write data sent =>
    cases hs
    exact h.write data sent
  | drain sent =>
    cases hs
    exact h.drain sent
  | setWriteBufferLimits high low =>
    cases hs
    exact h.setWriteBufferLimits hfits
  | writeEof idle =>
    cases hs
    exact h.writeEof idle
  | close idle =>
    simp only [FlowControl.step] at hs
    split at hs <;> cases hs
    · exact h.finish
    · exact h.writeEof idle
  | abort idle =>
    simp only [FlowControl.step] at hs
    split at hs <;> cases hs
    · rename_i plain hkind
      have hclosing : s.abortStream.closing = true := by
        simp [State.closing, State.abortStream, hkind]
      refine ⟨⟨h.alternate, h.parity, h.order⟩, fun hc => ?_, fun hc => ?_⟩
      · rw [hclosing] at hc
        cases hc
      · rw [hclosing] at hc
        cases hc
    · exact h.writeEof idle
  | hangup =>
    simp only [FlowControl.step] at hs
    split at hs <;> cases hs
    exact h.finish
  | returns frame =>
    obtain ⟨-, hs⟩ := Option.ite_none_right_eq_some.mp hs
    have ht : Inv { s with frames := s.frames.erase frame } :=
      ⟨⟨h.alternate, h.parity, h.order⟩, h.pauses, h.resumes⟩
    cases frame with
    | plain =>
      cases hs
      exact ht
    | limits =>
      cases hs
      exact .of_maybeResume ht.toCore ht.pauses

theorem kind_maybePause (s : State) (frame : Frame) : (s.maybePause frame).kind = s.kind := by
  unfold State.maybePause
  split <;> rfl

theorem kind_maybeResume (s : State) : s.maybeResume.kind = s.kind := by
  unfold State.maybeResume
  split <;> rfl

theorem kind_drained (s : State) : s.drained.kind = s.kind := by
  unfold State.drained
  repeat' split
  all_goals rfl

theorem step_kind {a : Action} (hs : step s a = some t) : t.kind = s.kind := by
  cases a with
  | write data sent =>
    cases hs
    unfold State.write
    repeat' split
    all_goals first | rfl | exact kind_maybePause _ _
  | drain sent =>
    cases hs
    unfold State.drain
    repeat' split
    · rfl
    · rfl
    · exact kind_drained s
    · exact (kind_drained _).trans (kind_maybeResume _)
  | setWriteBufferLimits high low =>
    cases hs
    unfold State.setWriteBufferLimits
    simp only
    repeat' split
    all_goals first | rfl | exact kind_maybePause _ _ | exact kind_maybeResume _
  | writeEof idle =>
    cases hs
    unfold State.writeEof
    repeat' split
    all_goals rfl
  | close idle | abort idle =>
    simp only [step] at hs
    split at hs <;> cases hs
    · rfl
    · unfold State.writeEof
      repeat' split
      all_goals rfl
  | hangup =>
    simp only [step] at hs
    split at hs <;> cases hs
    rfl
  | returns frame =>
    obtain ⟨-, hs⟩ := Option.ite_none_right_eq_some.mp hs
    cases frame <;> cases hs
    · rfl
    · exact kind_maybeResume _

theorem reachable_inv {kind : Kind} (h : Reachable ((system kind).restrict Fits) s) : Inv s := by
  refine h.invariant ?_ fun s a t _ hs hstep => ?_
  · rintro s rfl
    exact inv_start kind
  · obtain ⟨hfits, hstep⟩ := System.restrict_step.mp hstep
    exact hs.step hfits hstep

/-- The marks of a stream fit always. -/
theorem reachable_stream {plain : Bool} (h : Reachable (system (.stream plain)) s) :
    Inv s ∧ s.kind = .stream plain := by
  refine Reachable.invariant (P := fun s => Inv s ∧ s.kind = .stream plain) ?_
    (fun s a t _ hs hstep => ?_) h
  · rintro s rfl
    exact ⟨inv_start _, rfl⟩
  · have hfits : Fits s a := by
      cases a with
      | setWriteBufferLimits high low => exact fun hk => absurd (hs.2.symm.trans hk) (by rintro ⟨⟩)
      | _ => trivial
    exact ⟨hs.1.step hfits hstep, (step_kind hstep).trans hs.2⟩

/-- On a stream in every run, and on a pipe in every run in which the marks are changed only to ones
under which the protocol is to stay as it is. -/
theorem marks_kept (s : State) :
    (∀ plain, Reachable (system (.stream plain)) s → Sound s) ∧
    (Reachable ((system .pipe).restrict Fits) s → Sound s) := by
  refine ⟨fun plain h => ?_, fun h => ?_⟩
  · have hi := (reachable_stream h).1
    exact ⟨hi.alternate, hi.pauses, hi.resumes⟩
  · have hi := reachable_inv h
    exact ⟨hi.alternate, hi.pauses, hi.resumes⟩

/-- A write that pauses the protocol, which writes in the callback, and the drain to the end. -/
def pauseAndDrain : List Action :=
  [.write 100000 .blocked, .write 10 .blocked, .returns .plain, .setWriteBufferLimits (some 200000) none,
    .drain (.some 90000), .returns .plain]

theorem marks_kept_pauseAndDrain :
    ∃ s, ((system .pipe).restrict Fits).run (start .pipe) pauseAndDrain = some s ∧
      s.calls = [.pause, .resume] ∧ s.high = 200000 ∧ s.low = 50000 ∧ s.frames = [] ∧ Sound s := by
  have hrun : (((system .pipe).restrict Fits).run (start .pipe) pauseAndDrain).any (fun s =>
      s.calls = [.pause, .resume] ∧ s.high = 200000 ∧ s.low = 50000 ∧ s.frames = []) = true := by
    decide +kernel
  obtain ⟨s, hs, hp⟩ := (Option.any_eq_true _ _).mp hrun
  obtain ⟨hcalls, hhigh, hlow, hframes⟩ := of_decide_eq_true hp
  exact ⟨s, hs, hcalls, hhigh, hlow, hframes,
    (marks_kept s).2 (reachable_of_run (System.restrict _ _) pauseAndDrain rfl hs)⟩

/-- The high mark of a pipe is set under what is queued; the low one of a paused pipe over it. -/
theorem pipe_marks_missed :
    (∃ s, (system .pipe).run (start .pipe)
        [.write 1000 .blocked, .setWriteBufferLimits (some 100) none] = some s ∧
      s.frames = [] ∧ s.closing = false ∧ s.high < s.buf ∧ s.paused = false ∧ ¬Sound s) ∧
    ∃ s, (system .pipe).run (start .pipe)
        [.write 100000 .blocked, .returns .plain,
          .setWriteBufferLimits (some 400000) (some 200000)] = some s ∧
      s.frames = [] ∧ s.closing = false ∧ s.paused = true ∧ (s.buf : ℤ) ≤ s.low ∧ ¬Sound s := by
  refine ⟨⟨_, rfl, rfl, rfl, by decide, rfl, fun h => ?_⟩, ⟨_, rfl, rfl, rfl, rfl, by decide,
    fun h => ?_⟩⟩
  · cases h.pauses rfl (by decide)
  · exact absurd (h.resumes rfl rfl) (by decide)

end Stackweave.Aio.FlowControl
