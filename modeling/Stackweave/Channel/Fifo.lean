import Mathlib.Data.Int.Notation
import Mathlib.Data.List.Perm.Basic
import Stackweave.Channel.Ring
import Stackweave.Transition

/-!
# Plain sends and receives on one channel

`chan_send_locked`, `chan_recv_locked` and `runloom_chan_close` on a channel
that no select waits on. Each runs under `ch->lock` and is one step; a call
that has to wait leaves a waiter in a queue, and goes on in a later step of its
own once another call has popped the waiter, filled it in and woken it.

A value is tagged with the number of the send call it was passed to, so that
two sends of one object are told apart. The history fields `accepted`,
`delivered` and `parked` are written by the sections and read by nobody.

* `reachable_refines`: what was accepted is what was delivered followed by the
  ring, parked sends are accepted in the order they parked, a refused send is
  never delivered, and a receive reports a closed channel only when every
  accepted value has been delivered.
-/

namespace Stackweave.Channel.Fifo

open Transition

variable {V : Type*}

/-- The object passed to the send call number `call`. -/
structure Msg (V : Type*) where
  call : ℕ
  obj : V
  deriving DecidableEq

/-- `runloom_chan_waiter_t` of a plain operation (`select == NULL`). -/
structure Waiter (V : Type*) where
  call : ℕ
  value : Option (Msg V)
  ok : ℤ
  sendResult : ℤ

/-- `runloom_chan_t`; the queues are listed from head to tail. -/
structure Chan (V : Type*) where
  ring : Ring (Msg V)
  closed : Bool
  senders : List (Waiter V)
  receivers : List (Waiter V)

/-- What a call hands back. `got` is a receive with `ok = 1`, `recvClosed` is
`(None, ok = 0)`. The two `Closed` of a send and a close set a ValueError, the
`NoGoroutine` ones a RuntimeError. -/
inductive Ret (V : Type*)
  | sent
  | sendWouldBlock
  | sendClosed
  | sendNoGoroutine
  | got (value : Option (Msg V))
  | recvClosed
  | recvWouldBlock
  | recvNoGoroutine
  | closeDone
  | closeClosed
  deriving DecidableEq

/-- Everything one locked section does. `ret = none` when the call parks; a
woken waiter is one that `wake_waiter` was called on. -/
structure Section (V : Type*) where
  chan : Chan V
  ret : Option (Ret V)
  wokenTx : List (Waiter V) := []
  wokenRx : List (Waiter V) := []
  accepted : List (Option (Msg V)) := []
  delivered : List (Option (Msg V)) := []
  parked : List ℕ := []

/-- `chan_send_locked`. A plain waiter always wins its claim, so
`waiter_pop_claimable` is the head of the queue. -/
def sendLocked (ch : Chan V) (m : Msg V) (blocking goroutine : Bool) : Section V :=
  if ch.closed then { chan := ch, ret := some .sendClosed }
  else
    match ch.receivers with
    | rx :: rest =>
      { chan := { ch with receivers := rest }
        ret := some .sent
        wokenRx := [{ rx with value := some m, ok := 1 }]
        accepted := [some m]
        delivered := [some m] }
    | [] =>
      if 0 < ch.ring.cap ∧ ch.ring.len < ch.ring.cap then
        { chan := { ch with ring := bufPush ch.ring (some m) }
          ret := some .sent
          accepted := [some m] }
      else if !blocking then { chan := ch, ret := some .sendWouldBlock }
      else if !goroutine then { chan := ch, ret := some .sendNoGoroutine }
      else
        { chan := { ch with senders := ch.senders ++ [⟨m.call, some m, 0, -1⟩] }
          ret := none
          parked := [m.call] }

/-- `chan_recv_locked`. -/
def recvLocked (ch : Chan V) (call : ℕ) (blocking goroutine : Bool) : Section V :=
  if 0 < ch.ring.len then
    match ch.senders with
    | tx :: rest =>
      { chan := { ch with ring := bufPush (bufPop ch.ring).2 tx.value, senders := rest }
        ret := some (.got (bufPop ch.ring).1)
        wokenTx := [{ tx with value := none, sendResult := 0 }]
        accepted := [tx.value]
        delivered := [(bufPop ch.ring).1] }
    | [] =>
      { chan := { ch with ring := (bufPop ch.ring).2 }
        ret := some (.got (bufPop ch.ring).1)
        delivered := [(bufPop ch.ring).1] }
  else
    match ch.senders with
    | tx :: rest =>
      { chan := { ch with senders := rest }
        ret := some (.got tx.value)
        wokenTx := [{ tx with value := none, sendResult := 0 }]
        accepted := [tx.value]
        delivered := [tx.value] }
    | [] =>
      if ch.closed then { chan := ch, ret := some .recvClosed }
      else if !blocking then { chan := ch, ret := some .recvWouldBlock }
      else if !goroutine then { chan := ch, ret := some .recvNoGoroutine }
      else
        { chan := { ch with receivers := ch.receivers ++ [⟨call, none, -1, 0⟩] }
          ret := none }

/-- `runloom_chan_close`. -/
def closeLocked (ch : Chan V) : Section V :=
  if ch.closed then { chan := ch, ret := some .closeClosed }
  else
    { chan := { ch with closed := true, senders := [], receivers := [] }
      ret := some .closeDone
      wokenTx := ch.senders.map fun tx => { tx with sendResult := -1 }
      wokenRx := ch.receivers.map fun rx => { rx with value := none, ok := 0 } }

/-- The end of `chan_send_locked` after `park_waiter`. -/
def sendResumed (w : Waiter V) : Ret V :=
  if w.sendResult = 0 then .sent else .sendClosed

/-- The end of `chan_recv_locked` after `park_waiter`. -/
def recvResumed (w : Waiter V) : Ret V :=
  if w.ok = 1 then .got w.value else .recvClosed

structure State (V : Type*) where
  chan : Chan V
  next : ℕ
  wokenTx : List (Waiter V)
  wokenRx : List (Waiter V)
  results : List (ℕ × Ret V)
  accepted : List (Option (Msg V))
  delivered : List (Option (Msg V))
  parked : List ℕ

/-- `send` and `recv` with `blocking = false` are `runloom_chan_try_send` and
`runloom_chan_try_recv`; `goroutine = false` is a thread that runs no fiber. -/
inductive Action (V : Type*)
  | send (obj : V) (blocking goroutine : Bool)
  | recv (blocking goroutine : Bool)
  | close
  | resumeSender (i : ℕ)
  | resumeReceiver (i : ℕ)

/-- Run a section as the call number `s.next`. -/
def State.perform (s : State V) (o : Section V) : State V where
  chan := o.chan
  next := s.next + 1
  wokenTx := s.wokenTx ++ o.wokenTx
  wokenRx := s.wokenRx ++ o.wokenRx
  results := s.results ++ o.ret.toList.map fun r => (s.next, r)
  accepted := s.accepted ++ o.accepted
  delivered := s.delivered ++ o.delivered
  parked := s.parked ++ o.parked

def step (s : State V) : Action V → Option (State V)
  | .send obj blocking goroutine =>
    some (s.perform (sendLocked s.chan ⟨s.next, obj⟩ blocking goroutine))
  | .recv blocking goroutine => some (s.perform (recvLocked s.chan s.next blocking goroutine))
  | .close => some (s.perform (closeLocked s.chan))
  | .resumeSender i =>
    match s.wokenTx[i]? with
    | some w => some { s with wokenTx := s.wokenTx.eraseIdx i
                              results := s.results ++ [(w.call, sendResumed w)] }
    | none => none
  | .resumeReceiver i =>
    match s.wokenRx[i]? with
    | some w => some { s with wokenRx := s.wokenRx.eraseIdx i
                              results := s.results ++ [(w.call, recvResumed w)] }
    | none => none

/-- A channel as `runloom_chan_new` makes it. -/
def initial (cap : ℕ) : State V where
  chan := { ring := Ring.new cap, closed := false, senders := [], receivers := [] }
  next := 0
  wokenTx := []
  wokenRx := []
  results := []
  accepted := []
  delivered := []
  parked := []

def system (cap : ℕ) : System (State V) (Action V) where
  init s := s = initial cap
  step := step

/-! ## What a section can do -/

/-- The three ways a send reports that its value was not taken. -/
def Ret.Refused (r : Ret V) : Prop :=
  r = .sendWouldBlock ∨ r = .sendClosed ∨ r = .sendNoGoroutine

theorem sendLocked_cases (ch : Chan V) (m : Msg V) (b g : Bool) :
    (∃ r : Ret V, r.Refused ∧ sendLocked ch m b g = { chan := ch, ret := some r }) ∨
    (∃ rx rest, ch.closed = false ∧ ch.receivers = rx :: rest ∧
      sendLocked ch m b g =
        { chan := { ch with receivers := rest }
          ret := some .sent
          wokenRx := [{ rx with value := some m, ok := 1 }]
          accepted := [some m]
          delivered := [some m] }) ∨
    (ch.closed = false ∧ ch.receivers = [] ∧ ch.ring.len < ch.ring.cap ∧
      sendLocked ch m b g =
        { chan := { ch with ring := bufPush ch.ring (some m) }
          ret := some .sent
          accepted := [some m] }) ∨
    (ch.closed = false ∧ ch.receivers = [] ∧ ch.ring.cap ≤ ch.ring.len ∧
      sendLocked ch m b g =
        { chan := { ch with senders := ch.senders ++ [⟨m.call, some m, 0, -1⟩] }
          ret := none
          parked := [m.call] }) := by
  unfold sendLocked
  split
  case isTrue => exact .inl ⟨_, .inr (.inl rfl), rfl⟩
  case isFalse hopen =>
    rw [Bool.not_eq_true] at hopen
    split
    case h_1 rx rest hrx => exact .inr (.inl ⟨rx, rest, hopen, hrx, rfl⟩)
    case h_2 hrx =>
      split
      case isTrue hroom => exact .inr (.inr (.inl ⟨hopen, hrx, hroom.2, rfl⟩))
      case isFalse hroom =>
        split
        case isTrue => exact .inl ⟨_, .inl rfl, rfl⟩
        case isFalse =>
          split
          case isTrue => exact .inl ⟨_, .inr (.inr rfl), rfl⟩
          case isFalse => exact .inr (.inr (.inr ⟨hopen, hrx, by omega, rfl⟩))

theorem recvLocked_cases (ch : Chan V) (c : ℕ) (b g : Bool) :
    (∃ tx rest, 0 < ch.ring.len ∧ ch.senders = tx :: rest ∧
      recvLocked ch c b g =
        { chan := { ch with ring := bufPush (bufPop ch.ring).2 tx.value, senders := rest }
          ret := some (.got (bufPop ch.ring).1)
          wokenTx := [{ tx with value := none, sendResult := 0 }]
          accepted := [tx.value]
          delivered := [(bufPop ch.ring).1] }) ∨
    (0 < ch.ring.len ∧ ch.senders = [] ∧
      recvLocked ch c b g =
        { chan := { ch with ring := (bufPop ch.ring).2 }
          ret := some (.got (bufPop ch.ring).1)
          delivered := [(bufPop ch.ring).1] }) ∨
    (∃ tx rest, ch.ring.len = 0 ∧ ch.senders = tx :: rest ∧
      recvLocked ch c b g =
        { chan := { ch with senders := rest }
          ret := some (.got tx.value)
          wokenTx := [{ tx with value := none, sendResult := 0 }]
          accepted := [tx.value]
          delivered := [tx.value] }) ∨
    (ch.ring.len = 0 ∧ ch.closed = true ∧
      recvLocked ch c b g = { chan := ch, ret := some .recvClosed }) ∨
    (∃ r : Ret V, (r = .recvWouldBlock ∨ r = .recvNoGoroutine) ∧
      recvLocked ch c b g = { chan := ch, ret := some r }) ∨
    (ch.ring.len = 0 ∧ ch.closed = false ∧ ch.senders = [] ∧
      recvLocked ch c b g =
        { chan := { ch with receivers := ch.receivers ++ [⟨c, none, -1, 0⟩] }
          ret := none }) := by
  unfold recvLocked
  split
  case isTrue hlen =>
    split
    case h_1 tx rest htx => exact .inl ⟨tx, rest, hlen, htx, rfl⟩
    case h_2 htx => exact .inr (.inl ⟨hlen, htx, rfl⟩)
  case isFalse hlen =>
    have hlen : ch.ring.len = 0 := Nat.eq_zero_of_not_pos hlen
    split
    case h_1 tx rest htx => exact .inr (.inr (.inl ⟨tx, rest, hlen, htx, rfl⟩))
    case h_2 htx =>
      split
      case isTrue hclosed => exact .inr (.inr (.inr (.inl ⟨hlen, hclosed, rfl⟩)))
      case isFalse hopen =>
        rw [Bool.not_eq_true] at hopen
        split
        case isTrue => exact .inr (.inr (.inr (.inr (.inl ⟨_, .inl rfl, rfl⟩))))
        case isFalse =>
          split
          case isTrue => exact .inr (.inr (.inr (.inr (.inl ⟨_, .inr rfl, rfl⟩))))
          case isFalse => exact .inr (.inr (.inr (.inr (.inr ⟨hlen, hopen, htx, rfl⟩))))

variable {s t : State V} {a : Action V} {ch : Chan V} {o : Section V} {i : ℕ} {w tx : Waiter V}
  {rest : List (Waiter V)}

theorem step_cases (h : step s a = some t) :
    (∃ obj b g, t = s.perform (sendLocked s.chan ⟨s.next, obj⟩ b g)) ∨
    (∃ b g, t = s.perform (recvLocked s.chan s.next b g)) ∨
    t = s.perform (closeLocked s.chan) ∨
    (∃ i w, s.wokenTx[i]? = some w ∧
      t = { s with wokenTx := s.wokenTx.eraseIdx i
                   results := s.results ++ [(w.call, sendResumed w)] }) ∨
    (∃ i w, s.wokenRx[i]? = some w ∧
      t = { s with wokenRx := s.wokenRx.eraseIdx i
                   results := s.results ++ [(w.call, recvResumed w)] }) := by
  cases a with
  | send obj b g =>
    cases h
    exact .inl ⟨obj, b, g, rfl⟩
  | recv b g =>
    cases h
    exact .inr (.inl ⟨b, g, rfl⟩)
  | close =>
    cases h
    exact .inr (.inr (.inl rfl))
  | resumeSender i =>
    simp only [step] at h
    split at h
    case h_1 w hw =>
      cases h
      exact .inr (.inr (.inr (.inl ⟨i, w, hw, rfl⟩)))
    case h_2 => cases h
  | resumeReceiver i =>
    simp only [step] at h
    split at h
    case h_1 w hw =>
      cases h
      exact .inr (.inr (.inr (.inr ⟨i, w, hw, rfl⟩)))
    case h_2 => cases h

/-! ## The queues of a channel -/

/-- A queued sender means a full ring, a queued receiver an empty one with no
sender, and a closed channel has no queue. -/
structure Queues (ch : Chan V) : Prop where
  ring : ch.ring.WF
  tx_full : ch.senders ≠ [] → ch.ring.len = ch.ring.cap
  rx_empty : ch.receivers ≠ [] → ch.ring.len = 0 ∧ ch.senders = []
  closed : ch.closed → ch.senders = [] ∧ ch.receivers = []
  tx_value : ∀ w ∈ ch.senders, ∃ m, w.value = some m ∧ m.call = w.call

theorem Queues.send (h : Queues ch) (m : Msg V) (b g : Bool) :
    Queues (sendLocked ch m b g).chan := by
  have ⟨hring, hfull, hempty, hclosed, hval⟩ := h
  obtain ⟨r, -, ho⟩ | ⟨rx, rest, hopen, hrx, ho⟩ | ⟨hopen, hrx, hroom, ho⟩ |
    ⟨hopen, hrx, hroom, ho⟩ := sendLocked_cases ch m b g <;> rw [ho]
  · exact h
  · have hne := hempty (by simp [hrx])
    exact ⟨hring, hfull, fun _ => hne, by simp [hopen], hval⟩
  · -- room in the ring means nobody is queued to send
    have hnone : ch.senders = [] := by
      by_contra hne
      exact absurd (hfull hne) (Nat.ne_of_lt hroom)
    exact ⟨hring.push hroom m, by simp [hnone], by simp [hrx], by simp [hopen], hval⟩
  · refine ⟨hring, fun _ => Nat.le_antisymm hring.len_le hroom, by simp [hrx],
      by simp [hopen], ?_⟩
    intro w hw
    rcases List.mem_append.mp hw with hw | hw
    · exact hval w hw
    · rw [List.mem_singleton] at hw
      subst hw
      exact ⟨m, rfl, rfl⟩

theorem Queues.no_receiver (h : Queues ch) (hlen : 0 < ch.ring.len) :
    ch.receivers = [] := by
  by_contra hne
  exact absurd (h.rx_empty hne).1 (Nat.ne_of_gt hlen)

theorem Queues.refill_room (h : Queues ch) (hlen : 0 < ch.ring.len) :
    (bufPop ch.ring).2.len < (bufPop ch.ring).2.cap := by
  have := h.ring.len_le
  simp only [bufPop_len, bufPop_cap]
  omega

theorem Queues.recv (h : Queues ch) (c : ℕ) (b g : Bool) :
    Queues (recvLocked ch c b g).chan := by
  have ⟨hring, hfull, hempty, hclosed, hval⟩ := h
  obtain ⟨tx, rest, hlen, htx, ho⟩ | ⟨hlen, htx, ho⟩ | ⟨tx, rest, hlen, htx, ho⟩ |
    ⟨-, -, ho⟩ | ⟨r, -, ho⟩ | ⟨hlen, hopen, htx, ho⟩ := recvLocked_cases ch c b g <;> rw [ho]
  · obtain ⟨m, hm, -⟩ := hval tx (by simp [htx])
    refine ⟨hm ▸ (hring.pop hlen).push (h.refill_room hlen) m, fun _ => ?_,
      by simp [h.no_receiver hlen], fun hc => ?_, fun w hw => hval w (by simp_all)⟩
    · have := hfull (by simp [htx])
      simp only [bufPush_len, bufPop_len, bufPush_cap, bufPop_cap]
      omega
    · simp [(hclosed hc).1] at htx
  · exact ⟨hring.pop hlen, by simp [htx], by simp [h.no_receiver hlen], hclosed, hval⟩
  · refine ⟨hring, fun _ => hfull (by simp [htx]), fun hne => ?_, fun hc => ?_,
      fun w hw => hval w (by simp_all)⟩
    · simp [(hempty hne).2] at htx
    · simp [(hclosed hc).1] at htx
  · exact h
  · exact h
  · exact ⟨hring, by simp [htx], fun _ => ⟨hlen, htx⟩, by simp [hopen], hval⟩

theorem Queues.close (h : Queues ch) : Queues (closeLocked ch).chan := by
  unfold closeLocked
  split
  · exact h
  · exact ⟨h.ring, by simp, by simp, by simp, by simp⟩

/-! ## Order of the values -/

/-- A section adds at the tail what it accepts and takes at the head what it
delivers. -/
theorem sendLocked_order (h : Queues ch) (m : Msg V) (b g : Bool) :
    ch.ring.contents ++ (sendLocked ch m b g).accepted =
      (sendLocked ch m b g).delivered ++ (sendLocked ch m b g).chan.ring.contents := by
  obtain ⟨r, -, ho⟩ | ⟨rx, rest, hopen, hrx, ho⟩ | ⟨hopen, hrx, hroom, ho⟩ |
    ⟨hopen, hrx, hroom, ho⟩ := sendLocked_cases ch m b g <;> rw [ho]
  · simp
  · have hlen := (h.rx_empty (by simp [hrx])).1
    simp [Ring.contents_eq_nil hlen]
  · simp [h.ring.contents_push hroom]
  · simp

theorem recvLocked_order (h : Queues ch) (c : ℕ) (b g : Bool) :
    ch.ring.contents ++ (recvLocked ch c b g).accepted =
      (recvLocked ch c b g).delivered ++ (recvLocked ch c b g).chan.ring.contents := by
  obtain ⟨tx, rest, hlen, htx, ho⟩ | ⟨hlen, htx, ho⟩ | ⟨tx, rest, hlen, htx, ho⟩ |
    ⟨-, -, ho⟩ | ⟨r, -, ho⟩ | ⟨hlen, hopen, htx, ho⟩ := recvLocked_cases ch c b g <;> rw [ho]
  · simp [(h.ring.pop hlen).contents_push (h.refill_room hlen), h.ring.contents_pop hlen]
  · simp [h.ring.contents_pop hlen]
  · simp [Ring.contents_eq_nil hlen]
  · simp
  · simp
  · simp

theorem closeLocked_order (ch : Chan V) :
    ch.ring.contents ++ (closeLocked ch).accepted =
      (closeLocked ch).delivered ++ (closeLocked ch).chan.ring.contents := by
  unfold closeLocked
  split <;> simp

theorem sendLocked_nonnull (ch : Chan V) (m : Msg V) (b g : Bool) :
    ∀ p ∈ (sendLocked ch m b g).accepted, p.isSome := by
  obtain ⟨r, -, ho⟩ | ⟨rx, rest, hopen, hrx, ho⟩ | ⟨hopen, hrx, hroom, ho⟩ |
    ⟨hopen, hrx, hroom, ho⟩ := sendLocked_cases ch m b g <;> rw [ho] <;> simp

theorem recvLocked_nonnull (h : Queues ch) (c : ℕ) (b g : Bool) :
    ∀ p ∈ (recvLocked ch c b g).accepted, p.isSome := by
  have hhead : ∀ tx rest, ch.senders = tx :: rest → tx.value.isSome := by
    intro tx rest htx
    obtain ⟨m, hm, -⟩ := h.tx_value tx (by simp [htx])
    simp [hm]
  obtain ⟨tx, rest, hlen, htx, ho⟩ | ⟨hlen, htx, ho⟩ | ⟨tx, rest, hlen, htx, ho⟩ |
    ⟨-, -, ho⟩ | ⟨r, -, ho⟩ | ⟨hlen, hopen, htx, ho⟩ := recvLocked_cases ch c b g <;> rw [ho]
  · simpa using hhead tx rest htx
  · simp
  · simpa using hhead tx rest htx
  · simp
  · simp
  · simp

theorem closeLocked_nonnull (ch : Chan V) : ∀ p ∈ (closeLocked ch).accepted, p.isSome := by
  unfold closeLocked
  split <;> simp

/-- The pointer a receive returns with `ok = 1`. -/
def Ret.value? : Ret V → Option (Option (Msg V))
  | .got p => some p
  | _ => none

/-- The pointer a woken receiver will return with `ok = 1`. -/
def Waiter.held (w : Waiter V) : Option (Option (Msg V)) :=
  if w.ok = 1 then some w.value else none

theorem recvResumed_value (w : Waiter V) : (recvResumed w).value? = w.held := by
  unfold recvResumed Waiter.held
  split <;> rfl

theorem sendResumed_value (w : Waiter V) : (sendResumed w).value? = none := by
  unfold sendResumed
  split <;> rfl

theorem sendLocked_handed (ch : Chan V) (m : Msg V) (b g : Bool) :
    (sendLocked ch m b g).delivered =
      (sendLocked ch m b g).ret.toList.filterMap Ret.value? ++
        (sendLocked ch m b g).wokenRx.filterMap Waiter.held := by
  obtain ⟨r, hr, ho⟩ | ⟨rx, rest, hopen, hrx, ho⟩ | ⟨hopen, hrx, hroom, ho⟩ |
    ⟨hopen, hrx, hroom, ho⟩ := sendLocked_cases ch m b g <;> rw [ho]
  · rcases hr with rfl | rfl | rfl <;> rfl
  · rfl
  · rfl
  · rfl

theorem recvLocked_handed (ch : Chan V) (c : ℕ) (b g : Bool) :
    (recvLocked ch c b g).delivered =
      (recvLocked ch c b g).ret.toList.filterMap Ret.value? ++
        (recvLocked ch c b g).wokenRx.filterMap Waiter.held := by
  obtain ⟨tx, rest, hlen, htx, ho⟩ | ⟨hlen, htx, ho⟩ | ⟨tx, rest, hlen, htx, ho⟩ |
    ⟨-, -, ho⟩ | ⟨r, hr, ho⟩ | ⟨hlen, hopen, htx, ho⟩ := recvLocked_cases ch c b g <;> rw [ho]
  · rfl
  · rfl
  · rfl
  · rfl
  · rcases hr with rfl | rfl <;> rfl
  · rfl

theorem closeLocked_handed (ch : Chan V) :
    (closeLocked ch).delivered =
      (closeLocked ch).ret.toList.filterMap Ret.value? ++
        (closeLocked ch).wokenRx.filterMap Waiter.held := by
  unfold closeLocked
  split
  · rfl
  · simp [Ret.value?, Waiter.held, Function.comp_def]

/-- The pointers that receives returned with `ok = 1`, then those waiting in
the records of woken receivers. -/
def State.returned (s : State V) : List (Option (Msg V)) :=
  s.results.filterMap (fun x => x.2.value?) ++ s.wokenRx.filterMap Waiter.held

structure Ordered (s : State V) : Prop where
  queues : Queues s.chan
  order : s.accepted = s.delivered ++ s.chan.ring.contents
  nonnull : ∀ p ∈ s.accepted, p.isSome
  returned : s.delivered.Perm s.returned

theorem Ordered.perform (h : Ordered s) (hq : Queues o.chan)
    (hsome : ∀ p ∈ o.accepted, p.isSome)
    (horder : s.chan.ring.contents ++ o.accepted = o.delivered ++ o.chan.ring.contents)
    (hhanded : o.delivered =
      o.ret.toList.filterMap Ret.value? ++ o.wokenRx.filterMap Waiter.held) :
    Ordered (s.perform o) := by
  refine ⟨hq, ?_, ?_, ?_⟩
  · calc s.accepted ++ o.accepted
        = s.delivered ++ (s.chan.ring.contents ++ o.accepted) := by
          rw [h.order, List.append_assoc]
      _ = s.delivered ++ o.delivered ++ o.chan.ring.contents := by
          rw [horder, List.append_assoc]
  · intro p hp
    rcases List.mem_append.mp hp with hp | hp
    · exact h.nonnull p hp
    · exact hsome p hp
  · have hres : (s.perform o).returned =
        (s.results.filterMap (fun x => x.2.value?) ++ o.ret.toList.filterMap Ret.value?) ++
          (s.wokenRx.filterMap Waiter.held ++ o.wokenRx.filterMap Waiter.held) := by
      simp [State.returned, State.perform, List.filterMap_map]
    rw [hres]
    show (s.delivered ++ o.delivered).Perm _
    rw [hhanded]
    refine (h.returned.append_right _).trans ?_
    simp only [State.returned, List.append_assoc]
    refine List.Perm.append_left _ ?_
    rw [← List.append_assoc, ← List.append_assoc]
    exact List.Perm.append_right _ List.perm_append_comm

theorem Ordered.resumeReceiver (h : Ordered s)
    (hw : s.wokenRx[i]? = some w) :
    Ordered { s with wokenRx := s.wokenRx.eraseIdx i
                     results := s.results ++ [(w.call, recvResumed w)] } := by
  refine ⟨h.queues, h.order, h.nonnull, h.returned.trans ?_⟩
  obtain ⟨hi, rfl⟩ := List.getElem?_eq_some_iff.mp hw
  have hperm := (List.getElem_cons_eraseIdx_perm hi).symm.filterMap Waiter.held
  simp only [State.returned, List.filterMap_append, List.append_assoc, List.filterMap_cons,
    List.filterMap_nil, recvResumed_value] at hperm ⊢
  refine List.Perm.append_left _ (hperm.trans ?_)
  cases Waiter.held s.wokenRx[i] <;> rfl

theorem Ordered.resumeSender (h : Ordered s) :
    Ordered { s with wokenTx := s.wokenTx.eraseIdx i
                     results := s.results ++ [(w.call, sendResumed w)] } := by
  refine ⟨h.queues, h.order, h.nonnull, h.returned.trans ?_⟩
  simp [State.returned, sendResumed_value]

theorem ordered_step (h : Ordered s) (hs : step s a = some t) :
    Ordered t := by
  obtain ⟨obj, b, g, rfl⟩ | ⟨b, g, rfl⟩ | rfl | ⟨i, w, hw, rfl⟩ | ⟨i, w, hw, rfl⟩ := step_cases hs
  · exact h.perform (h.queues.send _ b g) (sendLocked_nonnull _ _ b g)
      (sendLocked_order h.queues _ b g) (sendLocked_handed _ _ b g)
  · exact h.perform (h.queues.recv _ b g) (recvLocked_nonnull h.queues _ b g)
      (recvLocked_order h.queues _ b g) (recvLocked_handed _ _ b g)
  · exact h.perform h.queues.close (closeLocked_nonnull _) (closeLocked_order _)
      (closeLocked_handed _)
  · exact h.resumeSender
  · exact h.resumeReceiver hw

/-! ## Which calls are accepted -/

/-- The send calls behind a list of pointers. -/
def calls (l : List (Option (Msg V))) : List ℕ := l.filterMap fun p => p.map Msg.call

@[simp, grind =] theorem calls_nil : calls ([] : List (Option (Msg V))) = [] := rfl

@[simp, grind =] theorem calls_cons (m : Msg V) (l : List (Option (Msg V))) :
    calls (some m :: l) = m.call :: calls l := rfl

@[simp, grind =] theorem calls_append (l l' : List (Option (Msg V))) :
    calls (l ++ l') = calls l ++ calls l' := by
  simp [calls]

/-- The send calls whose value was accepted or may still be. -/
def State.pool (s : State V) : List ℕ := calls s.accepted ++ s.chan.senders.map Waiter.call

structure Ticketed (s : State V) : Prop where
  pool_lt : ∀ c ∈ s.pool, c < s.next
  parked_lt : ∀ c ∈ s.parked, c < s.next
  once : s.pool.Nodup
  open_order : s.chan.closed = false →
    s.parked = (calls s.accepted).filter (· ∈ s.parked) ++ s.chan.senders.map Waiter.call
  order : (calls s.accepted).filter (· ∈ s.parked) <+: s.parked

theorem Ticketed.frame (h : Ticketed s)
    (hacc : calls t.accepted = calls s.accepted) (htx : t.chan.senders = s.chan.senders)
    (hpark : t.parked = s.parked) (hnext : s.next ≤ t.next)
    (hclosed : t.chan.closed = s.chan.closed) : Ticketed t := by
  have hpool : t.pool = s.pool := by simp only [State.pool, hacc, htx]
  refine ⟨fun c hc => ?_, fun c hc => ?_, hpool ▸ h.once, ?_, ?_⟩
  · exact Nat.lt_of_lt_of_le (h.pool_lt c (hpool ▸ hc)) hnext
  · exact Nat.lt_of_lt_of_le (h.parked_lt c (hpark ▸ hc)) hnext
  · rw [hclosed, hacc, htx, hpark]
    exact h.open_order
  · rw [hacc, hpark]
    exact h.order

/-- A call accepted at once was never parked. -/
theorem Ticketed.accept (h : Ticketed s)
    (hacc : calls t.accepted = calls s.accepted ++ [s.next])
    (htx : t.chan.senders = s.chan.senders) (hpark : t.parked = s.parked)
    (hnext : t.next = s.next + 1) (hclosed : t.chan.closed = s.chan.closed) : Ticketed t := by
  have hnew : s.next ∉ s.parked := fun hc => Nat.lt_irrefl _ (h.parked_lt _ hc)
  have hfilter : (calls t.accepted).filter (· ∈ t.parked) =
      (calls s.accepted).filter (· ∈ s.parked) := by
    simp [hacc, hpark, hnew]
  have hpool : t.pool.Perm (s.next :: s.pool) := by
    simp only [State.pool, hacc, htx, List.append_assoc, List.singleton_append]
    exact List.perm_middle
  refine ⟨fun c hc => ?_, fun c hc => ?_, ?_, ?_, ?_⟩
  · rcases List.mem_cons.mp (hpool.mem_iff.mp hc) with rfl | hc
    · omega
    · have := h.pool_lt c hc
      omega
  · have := h.parked_lt c (hpark ▸ hc)
    omega
  · rw [hpool.nodup_iff, List.nodup_cons]
    exact ⟨fun hc => Nat.lt_irrefl _ (h.pool_lt _ hc), h.once⟩
  · rw [hfilter, hclosed, htx, hpark]
    exact h.open_order
  · rw [hfilter, hpark]
    exact h.order

/-- A parked sender is accepted from the head of its queue. -/
theorem Ticketed.acceptParked
    (h : Ticketed s) (htx : s.chan.senders = tx :: rest) (htx' : t.chan.senders = rest)
    (hacc : calls t.accepted = calls s.accepted ++ [tx.call]) (hpark : t.parked = s.parked)
    (hnext : s.next ≤ t.next) (hopen : s.chan.closed = false) : Ticketed t := by
  have horder := h.open_order hopen
  have hmem : tx.call ∈ s.parked := by
    rw [horder, htx]
    simp
  have hpool : t.pool = s.pool := by simp [State.pool, hacc, htx, htx']
  have hparked : t.parked =
      (calls t.accepted).filter (· ∈ t.parked) ++ t.chan.senders.map Waiter.call := by
    rw [hacc, hpark, htx', List.filter_append]
    conv_lhs => rw [horder, htx]
    simp [hmem]
  refine ⟨fun c hc => ?_, fun c hc => ?_, hpool ▸ h.once, fun _ => hparked, ⟨_, hparked.symm⟩⟩
  · exact Nat.lt_of_lt_of_le (h.pool_lt c (hpool ▸ hc)) hnext
  · exact Nat.lt_of_lt_of_le (h.parked_lt c (hpark ▸ hc)) hnext

theorem Ticketed.park (h : Ticketed s)
    (htx : t.chan.senders = s.chan.senders ++ [w]) (hw : w.call = s.next)
    (hacc : calls t.accepted = calls s.accepted) (hpark : t.parked = s.parked ++ [s.next])
    (hnext : t.next = s.next + 1) (hopen : s.chan.closed = false) : Ticketed t := by
  have hpool : t.pool = s.pool ++ [s.next] := by simp [State.pool, hacc, htx, hw]
  -- the new call number is not among the accepted ones, so the filter is the same
  have hfilter : (calls t.accepted).filter (· ∈ t.parked) =
      (calls s.accepted).filter (· ∈ s.parked) := by
    rw [hacc, hpark]
    refine List.filter_congr fun c hc => ?_
    have : c < s.next := h.pool_lt c (List.mem_append_left _ hc)
    simp [Nat.ne_of_lt this]
  have hparked : t.parked =
      (calls t.accepted).filter (· ∈ t.parked) ++ t.chan.senders.map Waiter.call := by
    rw [hfilter, hpark, htx, List.map_append, ← List.append_assoc, ← h.open_order hopen]
    simp [hw]
  refine ⟨fun c hc => ?_, fun c hc => ?_, ?_, fun _ => hparked, ⟨_, hparked.symm⟩⟩
  · rw [hpool, List.mem_append, List.mem_singleton] at hc
    rcases hc with hc | rfl
    · have := h.pool_lt c hc
      omega
    · omega
  · rw [hpark, List.mem_append, List.mem_singleton] at hc
    rcases hc with hc | rfl
    · have := h.parked_lt c hc
      omega
    · omega
  · rw [hpool, (List.perm_append_singleton _ _).nodup_iff, List.nodup_cons]
    exact ⟨fun hc => Nat.lt_irrefl _ (h.pool_lt _ hc), h.once⟩

theorem Ticketed.close (h : Ticketed s)
    (hacc : calls t.accepted = calls s.accepted) (htx : t.chan.senders = [])
    (hpark : t.parked = s.parked) (hnext : s.next ≤ t.next)
    (hclosed : t.chan.closed = true) : Ticketed t := by
  have hsub : t.pool.Sublist s.pool := by
    simp only [State.pool, hacc, htx, List.map_nil, List.append_nil]
    exact List.sublist_append_left _ _
  refine ⟨fun c hc => ?_, fun c hc => ?_, h.once.sublist hsub, ?_, ?_⟩
  · exact Nat.lt_of_lt_of_le (h.pool_lt c (hsub.subset hc)) hnext
  · exact Nat.lt_of_lt_of_le (h.parked_lt c (hpark ▸ hc)) hnext
  · simp [hclosed]
  · rw [hacc, hpark]
    exact h.order

theorem Queues.open_of_sender
    (h : Queues ch) (htx : ch.senders = tx :: rest) : ch.closed = false := by
  by_contra hc
  rw [Bool.not_eq_false] at hc
  simp [(h.closed hc).1] at htx

theorem Queues.head_call
    (h : Queues ch) (htx : ch.senders = tx :: rest) : calls [tx.value] = [tx.call] := by
  obtain ⟨m, hm, hcall⟩ := h.tx_value tx (by simp [htx])
  simp [hm, hcall]

theorem ticketed_step (hq : Queues s.chan) (h : Ticketed s)
    (hs : step s a = some t) : Ticketed t := by
  obtain ⟨obj, b, g, rfl⟩ | ⟨b, g, rfl⟩ | rfl | ⟨i, w, hw, rfl⟩ | ⟨i, w, hw, rfl⟩ := step_cases hs
  · obtain ⟨r, -, ho⟩ | ⟨rx, rest, hopen, hrx, ho⟩ | ⟨hopen, hrx, hroom, ho⟩ |
      ⟨hopen, hrx, hroom, ho⟩ := sendLocked_cases s.chan ⟨s.next, obj⟩ b g <;> rw [ho]
    · exact h.frame (by simp [State.perform]) rfl (List.append_nil _) (Nat.le_succ _) rfl
    · exact h.accept (by simp [State.perform]) rfl (List.append_nil _) rfl rfl
    · exact h.accept (by simp [State.perform]) rfl (List.append_nil _) rfl rfl
    · exact h.park rfl rfl (by simp [State.perform]) rfl rfl hopen
  · obtain ⟨tx, rest, hlen, htx, ho⟩ | ⟨hlen, htx, ho⟩ | ⟨tx, rest, hlen, htx, ho⟩ |
      ⟨-, -, ho⟩ | ⟨r, -, ho⟩ | ⟨hlen, hopen, htx, ho⟩ :=
      recvLocked_cases s.chan s.next b g <;> rw [ho]
    · exact h.acceptParked htx rfl (by simp [State.perform, hq.head_call htx])
        (List.append_nil _) (Nat.le_succ _) (hq.open_of_sender htx)
    · exact h.frame (by simp [State.perform]) rfl (List.append_nil _) (Nat.le_succ _) rfl
    · exact h.acceptParked htx rfl (by simp [State.perform, hq.head_call htx])
        (List.append_nil _) (Nat.le_succ _) (hq.open_of_sender htx)
    · exact h.frame (by simp [State.perform]) rfl (List.append_nil _) (Nat.le_succ _) rfl
    · exact h.frame (by simp [State.perform]) rfl (List.append_nil _) (Nat.le_succ _) rfl
    · exact h.frame (by simp [State.perform]) rfl (List.append_nil _) (Nat.le_succ _) rfl
  · unfold closeLocked
    split
    · exact h.frame (by simp [State.perform]) rfl (List.append_nil _) (Nat.le_succ _) rfl
    · exact h.close (by simp [State.perform]) rfl (List.append_nil _) (Nat.le_succ _) rfl
  · exact h.frame rfl rfl rfl (Nat.le_refl _) rfl
  · exact h.frame rfl rfl rfl (Nat.le_refl _) rfl

/-! ## What the calls report -/

/-- Closed with nothing left to deliver. -/
def Chan.Drained (ch : Chan V) : Prop := ch.closed = true ∧ ch.ring.len = 0

structure Reported (s : State V) : Prop where
  refused_lt : ∀ c r, (c, r) ∈ s.results → r.Refused → c < s.next
  tx_lt : ∀ w ∈ s.wokenTx, w.call < s.next
  sent : ∀ c, (c, .sent) ∈ s.results → c ∈ calls s.accepted
  tx_sent : ∀ w ∈ s.wokenTx, w.sendResult = 0 → w.call ∈ calls s.accepted
  refused : ∀ c r, (c, r) ∈ s.results → r.Refused → c ∉ s.pool
  tx_refused : ∀ w ∈ s.wokenTx, w.sendResult ≠ 0 → w.call ∉ s.pool
  drained : ∀ c, (c, .recvClosed) ∈ s.results → s.chan.Drained
  rx_drained : ∀ w ∈ s.wokenRx, w.ok ≠ 1 → s.chan.Drained

/-- What a section has to do for the reports to stay right. -/
structure Section.Reports (s : State V) (o : Section V) : Prop where
  pool : ∀ c ∈ (s.perform o).pool, c ∈ s.pool ∨ c = s.next
  ret_sent : o.ret = some .sent → s.next ∈ calls o.accepted
  ret_refused : ∀ r, o.ret = some r → r.Refused → s.next ∉ (s.perform o).pool
  ret_drained : o.ret = some .recvClosed → o.chan.Drained
  tx_lt : ∀ w ∈ o.wokenTx, w.call < s.next
  tx_sent : ∀ w ∈ o.wokenTx, w.sendResult = 0 → w.call ∈ calls o.accepted
  tx_refused : ∀ w ∈ o.wokenTx, w.sendResult ≠ 0 → w.call ∉ (s.perform o).pool
  rx_drained : ∀ w ∈ o.wokenRx, w.ok ≠ 1 → o.chan.Drained
  stays_drained : s.chan.Drained → o.chan.Drained

theorem Reported.perform (h : Reported s) (ho : o.Reports s) :
    Reported (s.perform o) := by
  have hres : ∀ c r, (c, r) ∈ (s.perform o).results →
      (c, r) ∈ s.results ∨ (s.next = c ∧ o.ret = some r) := by
    intro c r hc
    simpa [State.perform, Prod.ext_iff, and_comm] using hc
  have hout : ∀ c, c < s.next → c ∉ s.pool → c ∉ (s.perform o).pool := by
    intro c hlt hc hc'
    rcases ho.pool c hc' with hc' | rfl
    · exact hc hc'
    · exact Nat.lt_irrefl _ hlt
  have hacc : ∀ c, c ∈ calls s.accepted ∨ c ∈ calls o.accepted →
      c ∈ calls (s.perform o).accepted := by
    intro c hc
    simpa [State.perform] using hc
  refine ⟨fun c r hc hr => ?_, fun w hw => ?_, fun c hc => ?_, fun w hw hr => ?_,
    fun c r hc hr => ?_, fun w hw hr => ?_, fun c hc => ?_, fun w hw hr => ?_⟩
  · rcases hres c r hc with hc | ⟨rfl, -⟩
    · exact Nat.lt_succ_of_lt (h.refused_lt c r hc hr)
    · exact Nat.lt_succ_self _
  · rcases List.mem_append.mp hw with hw | hw
    · exact Nat.lt_succ_of_lt (h.tx_lt w hw)
    · exact Nat.lt_succ_of_lt (ho.tx_lt w hw)
  · rcases hres c _ hc with hc | ⟨rfl, hret⟩
    · exact hacc c (.inl (h.sent c hc))
    · exact hacc _ (.inr (ho.ret_sent hret))
  · rcases List.mem_append.mp hw with hw | hw
    · exact hacc _ (.inl (h.tx_sent w hw hr))
    · exact hacc _ (.inr (ho.tx_sent w hw hr))
  · rcases hres c r hc with hc | ⟨rfl, hret⟩
    · exact hout c (h.refused_lt c r hc hr) (h.refused c r hc hr)
    · exact ho.ret_refused r hret hr
  · rcases List.mem_append.mp hw with hw | hw
    · exact hout _ (h.tx_lt w hw) (h.tx_refused w hw hr)
    · exact ho.tx_refused w hw hr
  · rcases hres c _ hc with hc | ⟨-, hret⟩
    · exact ho.stays_drained (h.drained c hc)
    · exact ho.ret_drained hret
  · rcases List.mem_append.mp hw with hw | hw
    · exact ho.stays_drained (h.rx_drained w hw hr)
    · exact ho.rx_drained w hw hr

/-- A section that moves no value and parks no sender. -/
theorem Section.Reports.quiet (ht : Ticketed s)
    (hacc : o.accepted = []) (htx : o.chan.senders = s.chan.senders)
    (hsent : o.ret ≠ some .sent) (hdrained : o.ret = some .recvClosed → o.chan.Drained)
    (hwtx : o.wokenTx = []) (hwrx : o.wokenRx = [])
    (hstay : s.chan.Drained → o.chan.Drained) : o.Reports s := by
  have hpool : (s.perform o).pool = s.pool := by simp [State.pool, State.perform, hacc, htx]
  refine ⟨fun c hc => .inl (hpool ▸ hc), fun hc => absurd hc hsent, fun r _ _ hc => ?_, hdrained,
    by simp [hwtx], by simp [hwtx], by simp [hwtx], by simp [hwrx], hstay⟩
  exact Nat.lt_irrefl _ (ht.pool_lt _ (hpool ▸ hc))

theorem sendLocked_reports (ht : Ticketed s) (obj : V) (b g : Bool) :
    (sendLocked s.chan ⟨s.next, obj⟩ b g).Reports s := by
  obtain ⟨r, hr, ho⟩ | ⟨rx, rest, hopen, hrx, ho⟩ | ⟨hopen, hrx, hroom, ho⟩ |
    ⟨hopen, hrx, hroom, ho⟩ := sendLocked_cases s.chan ⟨s.next, obj⟩ b g <;> rw [ho]
  · refine .quiet ht rfl rfl ?_ ?_ rfl rfl id
    · rcases hr with rfl | rfl | rfl <;> simp
    · rcases hr with rfl | rfl | rfl <;> simp
  · constructor <;> simp [State.pool, State.perform, Ret.Refused, Chan.Drained, hopen]
    grind
  · constructor <;> simp [State.pool, State.perform, Ret.Refused, Chan.Drained, hopen]
    grind
  · constructor <;> simp [State.pool, State.perform, Chan.Drained, hopen]
    grind

theorem Section.Reports.acceptParked
    {p : Option (Msg V)} (hq : Queues s.chan) (ht : Ticketed s)
    (htx : s.chan.senders = tx :: rest) (hchan : o.chan.senders = rest)
    (hret : o.ret = some (.got p)) (hacc : o.accepted = [tx.value])
    (hwtx : o.wokenTx = [{ tx with value := none, sendResult := 0 }])
    (hwrx : o.wokenRx = []) : o.Reports s := by
  have hcall := hq.head_call htx
  have hopen := hq.open_of_sender htx
  have hlt : tx.call < s.next := ht.pool_lt _ (by simp [State.pool, htx])
  constructor <;> simp [State.pool, State.perform, Ret.Refused, Chan.Drained, hopen, hret, hacc,
    hwtx, hwrx, hcall, hchan, htx, hlt]
  grind

theorem recvLocked_reports (hq : Queues s.chan) (ht : Ticketed s) (b g : Bool) :
    (recvLocked s.chan s.next b g).Reports s := by
  obtain ⟨tx, rest, hlen, htx, ho⟩ | ⟨hlen, htx, ho⟩ | ⟨tx, rest, hlen, htx, ho⟩ |
    ⟨hlen, hclosed, ho⟩ | ⟨r, hr, ho⟩ | ⟨hlen, hopen, htx, ho⟩ :=
    recvLocked_cases s.chan s.next b g <;> rw [ho]
  · exact .acceptParked hq ht htx rfl rfl rfl rfl rfl
  · refine .quiet ht rfl rfl (by simp) (by simp) rfl rfl fun hd => ?_
    exact absurd hd.2 (Nat.ne_of_gt hlen)
  · exact .acceptParked hq ht htx rfl rfl rfl rfl rfl
  · exact .quiet ht rfl rfl (by simp) (fun _ => ⟨hclosed, hlen⟩) rfl rfl id
  · refine .quiet ht rfl rfl ?_ ?_ rfl rfl id
    · rcases hr with rfl | rfl <;> simp
    · rcases hr with rfl | rfl <;> simp
  · exact .quiet ht rfl rfl (by simp) (by simp) rfl rfl id

theorem closeLocked_reports (hq : Queues s.chan) (ht : Ticketed s) :
    (closeLocked s.chan).Reports s := by
  unfold closeLocked
  split
  · exact .quiet ht rfl rfl (by simp) (by simp) rfl rfl id
  case isFalse hopen =>
    -- a parked sender is turned away, and it was never accepted before
    have hturned : ∀ w ∈ s.chan.senders, w.call < s.next ∧ w.call ∉ calls s.accepted := by
      intro w hw
      have hmem : w.call ∈ s.chan.senders.map Waiter.call := List.mem_map_of_mem hw
      refine ⟨ht.pool_lt _ (List.mem_append_right _ hmem), fun hacc => ?_⟩
      exact (List.nodup_append.mp ht.once).2.2 _ hacc _ hmem rfl
    have hempty : ∀ w ∈ s.chan.receivers, s.chan.ring.len = 0 :=
      fun w hw => (hq.rx_empty (List.ne_nil_of_mem hw)).1
    constructor <;>
      simp [State.pool, State.perform, Ret.Refused, Chan.Drained, hopen]
    · exact fun c hc => .inl (.inl hc)
    · exact fun w hw => (hturned w hw).1
    · exact fun w hw => (hturned w hw).2
    · exact hempty

theorem Reported.resumeSender (h : Reported s)
    (hw : s.wokenTx[i]? = some w) :
    Reported { s with wokenTx := s.wokenTx.eraseIdx i
                      results := s.results ++ [(w.call, sendResumed w)] } := by
  have hmem : w ∈ s.wokenTx := List.mem_of_getElem? hw
  have hsub : ∀ x ∈ s.wokenTx.eraseIdx i, x ∈ s.wokenTx :=
    fun x hx => List.mem_of_mem_eraseIdx hx
  have hret : (sendResumed w = .sent ∧ w.sendResult = 0) ∨
      (sendResumed w = .sendClosed ∧ w.sendResult ≠ 0) := by
    unfold sendResumed
    split <;> simp_all
  have ⟨hlt, htxlt, hsent, htxsent, href, htxref, hdr, hrxdr⟩ := h
  constructor <;> simp only [List.mem_append, List.mem_singleton, Prod.mk.injEq]
  · grind
  · grind
  · grind
  · grind
  · rintro c r (hc | ⟨rfl, rfl⟩) hr
    · exact href c r hc hr
    · rcases hret with ⟨hsr, -⟩ | ⟨-, hne⟩
      · simp [hsr, Ret.Refused] at hr
      · exact htxref w hmem hne
  · exact fun x hx => htxref x (hsub x hx)
  · grind
  · exact hrxdr

theorem Reported.resumeReceiver (h : Reported s)
    (hw : s.wokenRx[i]? = some w) :
    Reported { s with wokenRx := s.wokenRx.eraseIdx i
                      results := s.results ++ [(w.call, recvResumed w)] } := by
  have hmem : w ∈ s.wokenRx := List.mem_of_getElem? hw
  have hsub : ∀ x ∈ s.wokenRx.eraseIdx i, x ∈ s.wokenRx :=
    fun x hx => List.mem_of_mem_eraseIdx hx
  have hret : (∃ p, recvResumed w = .got p) ∨ (recvResumed w = .recvClosed ∧ w.ok ≠ 1) := by
    unfold recvResumed
    split <;> simp_all
  have hnot : ¬ (recvResumed w).Refused := by
    rcases hret with ⟨p, hp⟩ | ⟨hp, -⟩ <;> simp [hp, Ret.Refused]
  have hsent : recvResumed w ≠ .sent := by
    rcases hret with ⟨p, hp⟩ | ⟨hp, -⟩ <;> simp [hp]
  have ⟨hlt, htxlt, hsent', htxsent, href, htxref, hdr, hrxdr⟩ := h
  constructor <;> simp only [List.mem_append, List.mem_singleton, Prod.mk.injEq]
  · rintro c r (hc | ⟨rfl, rfl⟩) hr
    · exact hlt c r hc hr
    · exact absurd hr hnot
  · exact htxlt
  · grind
  · exact htxsent
  · rintro c r (hc | ⟨rfl, rfl⟩) hr
    · exact href c r hc hr
    · exact absurd hr hnot
  · exact htxref
  · grind
  · exact fun x hx => hrxdr x (hsub x hx)

theorem reported_step (hq : Queues s.chan) (ht : Ticketed s)
    (h : Reported s) (hs : step s a = some t) : Reported t := by
  obtain ⟨obj, b, g, rfl⟩ | ⟨b, g, rfl⟩ | rfl | ⟨i, w, hw, rfl⟩ | ⟨i, w, hw, rfl⟩ := step_cases hs
  · exact h.perform (sendLocked_reports ht obj b g)
  · exact h.perform (recvLocked_reports hq ht b g)
  · exact h.perform (closeLocked_reports hq ht)
  · exact h.resumeSender hw
  · exact h.resumeReceiver hw

/-! ## The channel is a queue -/

/-- The channel refines a first-in first-out queue. The accepted values are the
delivered ones followed by the ring (`order`), no send is accepted twice
(`once`), and each delivered value is returned by, or waits for, one receive
(`returned`). -/
structure Refines (s : State V) : Prop where
  order : s.accepted = s.delivered ++ s.chan.ring.contents
  nonnull : ∀ p ∈ s.accepted, p.isSome
  once : (calls s.accepted).Nodup
  returned : s.delivered.Perm s.returned
  parked : (calls s.accepted).filter (· ∈ s.parked) <+: s.parked
  sent : ∀ c, (c, .sent) ∈ s.results → c ∈ calls s.accepted
  refused : ∀ c r, (c, r) ∈ s.results → r.Refused →
    c ∉ calls s.accepted ∧ c ∉ calls s.delivered
  drained : ∀ c, (c, .recvClosed) ∈ s.results →
    s.chan.closed = true ∧ s.chan.ring.contents = [] ∧ s.delivered = s.accepted

theorem initial_inv (cap : ℕ) :
    Ordered (initial cap : State V) ∧ Ticketed (initial cap : State V) ∧
      Reported (initial cap : State V) := by
  refine ⟨⟨⟨Ring.WF.new cap, ?_, ?_, ?_, ?_⟩, ?_, ?_, ?_⟩, ⟨?_, ?_, ?_, ?_, ?_⟩,
    ⟨?_, ?_, ?_, ?_, ?_, ?_, ?_, ?_⟩⟩ <;>
    simp [initial, State.returned, State.pool, Ring.contents, Ring.new]

theorem reachable_inv {cap : ℕ} (h : Reachable (system cap) s) :
    Ordered s ∧ Ticketed s ∧ Reported s := by
  induction h with
  | start hs =>
    subst hs
    exact initial_inv cap
  | next _ hs ih =>
    obtain ⟨ho, ht, hr⟩ := ih
    exact ⟨ordered_step ho hs, ticketed_step ho.queues ht hs,
      reported_step ho.queues ht hr hs⟩

/-- **A channel is a queue.** In every interleaving of sends, receives and
closes on a channel of any capacity. -/
theorem reachable_refines {cap : ℕ} {s : State V} (h : Reachable (system cap) s) :
    Refines s := by
  obtain ⟨ho, ht, hr⟩ := reachable_inv h
  have hsub : ∀ c, c ∈ calls s.delivered → c ∈ calls s.accepted := by
    intro c hc
    rw [ho.order, calls_append]
    exact List.mem_append_left _ hc
  refine ⟨ho.order, ho.nonnull, ?_, ho.returned, ht.order, hr.sent, fun c r hc href => ?_,
    fun c hc => ?_⟩
  · exact ht.once.sublist (List.sublist_append_left _ _)
  · have hout : c ∉ calls s.accepted :=
      fun hacc => hr.refused c r hc href (List.mem_append_left _ hacc)
    exact ⟨hout, fun hdel => hout (hsub c hdel)⟩
  · obtain ⟨hclosed, hlen⟩ := hr.drained c hc
    have hnil := Ring.contents_eq_nil hlen
    exact ⟨hclosed, hnil, by rw [ho.order, hnil, List.append_nil]⟩

/-- One slot: the second send parks, the first receive moves it into the ring,
and after the close a receive still gets it. -/
theorem reachable_refines_oneSlot :
    ∃ s : State ℕ, Reachable (system 1) s ∧
      s.delivered = [some ⟨0, 7⟩, some ⟨1, 8⟩] ∧ (5, .recvClosed) ∈ s.results ∧ Refines s := by
  have hr : Reachable (system 1) _ :=
    reachable_of_run (system 1) [.send 7 true true, .send 8 true true, .recv true true,
      .resumeSender 0, .close, .recv true true, .recv true true] rfl rfl
  exact ⟨_, hr, rfl, by decide, reachable_refines hr⟩

end Stackweave.Channel.Fifo
