import Mathlib.Data.List.Basic
import Mathlib.Logic.Function.Basic
import Mathlib.Tactic.Common
import Stackweave.Transition

/-!
# `_MemoryBIOTLS` (`aio/tls_bio.py`)

Fibers that call `send`, `recv_nb` and `send_close_notify` on one TLS object. What the
SSL object writes goes to the outgoing BIO; `_pump_out` takes all of it out and sends it
to the raw socket, which may accept a part, would block or fail. Between the parks of
`_wait_fd` other fibers run; `kick` is `cancel_wait_fd`.
-/

namespace Stackweave.Aio.TlsBio

open Transition Function

inductive Call
  | send
  | recvNb
  | closeNotify
  deriving DecidableEq

/-- What comes after the flush: the call is over, or it feeds the incoming BIO or not and
tries again. -/
inductive After
  | leave
  | feed
  | retry

/-- Where a fiber stands; `view` is what it has taken out of the BIO and not sent. -/
inductive Pc (B : Type)
  | outside
  /-- about to call the SSL object, under the lock -/
  | calling (c : Call)
  /-- `self._out.read()` -/
  | pumping (c : Call) (after : After)
  | sending (c : Call) (after : After) (view : List B)
  /-- `_wait_fd(WRITE)` of `_pump_out` -/
  | waiting (c : Call) (after : After) (view : List B)
  /-- `_feed_in_nb` -/
  | feeding (c : Call)
  /-- `_wait_fd(READ)` of `send` -/
  | reading
  /-- ended by a `CancelledError` -/
  | ended

/-- What the SSL object answers. -/
inductive Reply
  | done
  | wantRead
  | wantWrite
  /-- the peer's close_notify -/
  | zeroReturn
  | error

inductive Feed
  | fed
  | dry
  | eof

/-- `written` is all that the SSL object wrote, `sent` all that the raw socket accepted,
`failed` that it reported an error; `busy` are the fibers with a view. -/
structure State (B : Type) where
  bio : List B
  eofIn : Bool
  peerCloseNotify : Bool
  closed : Bool
  pc : ℕ → Pc B
  written : List B
  sent : List B
  failed : Bool
  busy : List ℕ

def init (B : Type) : State B :=
  { bio := [], eofIn := false, peerCloseNotify := false, closed := false, pc := fun _ => .outside
    written := [], sent := [], failed := false, busy := [] }

inductive Action (B : Type)
  | call (n : ℕ) (c : Call)
  | ssl (n : ℕ) (out : List B) (r : Reply)
  | take (n : ℕ)
  | rawSend (n k : ℕ)
  | wouldBlock (n : ℕ)
  | ready (n : ℕ)
  | fail (n : ℕ)
  | feed (n : ℕ) (f : Feed)
  | kick (n : ℕ)
  | close

variable {B : Type}

def State.goto (s : State B) (n : ℕ) (p : Pc B) : State B :=
  { s with pc := Function.update s.pc n p }

def State.encrypt (s : State B) (out : List B) : State B :=
  { s with bio := s.bio ++ out, written := s.written ++ out }

/-- Where a call goes on when the flush is over. -/
def resume (c : Call) : After → Pc B
  | .leave => .outside
  | .feed => .feeding c
  | .retry => .calling c

/-- The SSL object was called. -/
def answer (s : State B) (n : ℕ) (c : Call) (r : Reply) : State B :=
  match c, r with
  | .send, .done => s.goto n (.pumping c .leave)
  | .send, .wantRead | .send, .wantWrite => s.goto n (.pumping c .feed)
  | .send, _ => s.goto n .outside
  | .recvNb, .wantRead => s.goto n (.pumping c .feed)
  | .recvNb, .wantWrite => s.goto n (.pumping c .retry)
  | .recvNb, .zeroReturn => { s with peerCloseNotify := true }.goto n .outside
  | .recvNb, _ => s.goto n .outside
  | .closeNotify, _ => s.goto n (.pumping c .leave)

/-- The loop of `_pump_out` with what is left of the view. -/
def State.pump (s : State B) (n : ℕ) (c : Call) (after : After) : List B → State B
  | [] => { s with busy := s.busy.erase n }.goto n (resume c after)
  | b :: view => s.goto n (.sending c after (b :: view))

/-- The peer's EOF ends a `recv_nb`; `send` does not look at it. -/
def afterEof : Call → Pc B
  | .recvNb => .outside
  | c => .calling c

/-- `recv_nb` raises `BlockingIOError` when the socket is dry, `send` waits. -/
def afterDry : Call → Pc B
  | .recvNb => .outside
  | _ => .reading

def fed (s : State B) (n : ℕ) (c : Call) (f : Feed) : State B :=
  if s.eofIn then s.goto n (afterEof c)
  else
    match f with
    | .fed => s.goto n (.calling c)
    | .dry => s.goto n (afterDry c)
    | .eof => { s with eofIn := true }.goto n (afterEof c)

/-- `cancel_wait_fd`: `except Exception` does not catch the `CancelledError`. -/
def kicked (s : State B) (n : ℕ) : State B :=
  match s.pc n with
  | .waiting _ _ _ => { s with busy := s.busy.erase n }.goto n .ended
  | .reading => s.goto n .ended
  | _ => s

@[grind =]
def step (s : State B) : Action B → Option (State B)
  | .call n c =>
    match s.pc n with
    | .outside =>
      if s.closed || c == .closeNotify && s.eofIn && !s.peerCloseNotify then some s
      else some (s.goto n (.calling c))
    | _ => none
  | .ssl n out r =>
    match s.pc n with
    | .calling c => some (answer (s.encrypt out) n c r)
    | _ => none
  | .take n =>
    match s.pc n with
    | .pumping c after =>
      match s.bio with
      | [] => some (s.goto n (resume c after))
      | b :: view =>
        some ({ s with bio := [], busy := n :: s.busy }.goto n (.sending c after (b :: view)))
    | _ => none
  | .rawSend n k =>
    match s.pc n with
    | .sending c after view =>
      if !s.closed && decide (0 < k ∧ k ≤ view.length) then
        some ({ s with sent := s.sent ++ view.take k }.pump n c after (view.drop k))
      else none
    | _ => none
  | .wouldBlock n =>
    match s.pc n with
    | .sending c after view => some (s.goto n (.waiting c after view))
    | _ => none
  | .ready n =>
    match s.pc n with
    | .waiting c after view => some (s.goto n (.sending c after view))
    | .reading => some (s.goto n (.calling .send))
    | _ => none
  -- `_pump_out` returns False; a failed wait too
  | .fail n =>
    match s.pc n with
    | .sending _ _ _ | .waiting _ _ _ =>
      some ({ s with failed := true, busy := s.busy.erase n }.goto n .outside)
    | .reading => some ({ s with failed := true }.goto n .outside)
    | _ => none
  | .feed n f =>
    match s.pc n with
    | .feeding c => some (fed s n c f)
    | _ => none
  | .kick n => some (kicked s n)
  | .close => some { s with closed := true }

def system (B : Type) : System (State B) (Action B) where
  init s := s = init B
  step := step

/-! ## The ciphertext -/

def Pc.view : Pc B → List B
  | .sending _ _ view | .waiting _ _ view => view
  | _ => []

/-- `hand` is what the fibers have taken out of the BIO and not sent: it is one fiber's. -/
def State.InHand (s : State B) (hand : List B) : Prop :=
  (hand = [] ∧ ∀ n, (s.pc n).view = []) ∨
    ∃ n, hand = (s.pc n).view ∧ ∀ m, m ≠ n → (s.pc m).view = []

structure Ordered (s : State B) : Prop where
  pre : s.sent <+: s.written
  /-- no byte is dropped or sent twice as long as the socket reports no error -/
  whole : s.failed = false → ∃ hand, s.InHand hand ∧ s.sent ++ hand ++ s.bio = s.written
  alive : ∀ n, s.pc n ≠ .ended

/-- A fiber takes bytes out of the BIO while another has some in hand; a fiber that waits
inside `_pump_out` or `send` is kicked; or a socket that failed accepts bytes. -/
def amiss (s : State B) : Action B → Bool
  | .take _ => !s.bio.isEmpty && !s.busy.isEmpty
  | .kick n =>
    match s.pc n with
    | .waiting _ _ _ | .reading => true
    | _ => false
  | .rawSend _ _ => s.failed
  | _ => false

def serial (B : Type) : System (State B) (Action B) :=
  (system B).restrict fun s a => amiss s a = false

structure Inv (s : State B) : Prop where
  pre : s.sent <+: s.written
  whole : s.failed = false → ∃ hand, s.InHand hand ∧ s.sent ++ hand ++ s.bio = s.written
  alive : ∀ n, s.pc n ≠ .ended
  busy : ∀ n, n ∈ s.busy ↔ (s.pc n).view ≠ []
  nodup : s.busy.Nodup
  one : ∀ n m, n ∈ s.busy → m ∈ s.busy → n = m

theorem inv_init : Inv (init B) where
  pre := List.prefix_refl _
  whole := fun _ => ⟨[], .inl ⟨rfl, fun _ => rfl⟩, rfl⟩
  alive := by rintro _ ⟨⟩
  busy := fun _ => iff_of_false (by rintro ⟨⟩) fun h => h rfl
  nodup := List.nodup_nil
  one := by rintro _ _ ⟨⟩

section Steps

variable {s t : State B} {n : ℕ} {q : Pc B}

theorem update_view (hq : q.view = (s.pc n).view) (m : ℕ) :
    (update s.pc n q m).view = (s.pc m).view := by
  by_cases hmn : m = n
  · rw [hmn, update_self, hq]
  · rw [update_of_ne hmn]

theorem State.InHand.congr {hand : List B} (h : s.InHand hand)
    (hview : ∀ m, (t.pc m).view = (s.pc m).view) : t.InHand hand := by
  rcases h with ⟨hnil, hall⟩ | ⟨m, hm, hall⟩
  · exact .inl ⟨hnil, fun m => (hview m).trans (hall m)⟩
  · exact .inr ⟨m, hm.trans (hview m).symm, fun e he => (hview e).trans (hall e he)⟩

/-- A fiber moves with what it has in hand. -/
theorem Inv.move (hi : Inv s) (hpc : t.pc = update s.pc n q)
    (hq : q.view = (s.pc n).view) (hended : q ≠ .ended) (hbio : t.bio = s.bio)
    (hwritten : t.written = s.written) (hsent : t.sent = s.sent)
    (hfailed : t.failed = false → s.failed = false) (hbusy : t.busy = s.busy) : Inv t := by
  have hview : ∀ m, (t.pc m).view = (s.pc m).view := fun m => by
    rw [hpc]
    exact update_view hq m
  constructor
  case pre => rw [hsent, hwritten]; exact hi.pre
  case whole =>
    intro hf
    obtain ⟨hand, hhand, heq⟩ := hi.whole (hfailed hf)
    rw [hsent, hbio, hwritten]
    exact ⟨hand, hhand.congr hview, heq⟩
  case alive =>
    intro m
    rw [hpc]
    by_cases hmn : m = n
    · rw [hmn, update_self]
      exact hended
    · rw [update_of_ne hmn]
      exact hi.alive m
  case busy =>
    intro m
    rw [hbusy, hview m]
    exact hi.busy m
  case nodup => rw [hbusy]; exact hi.nodup
  case one => rw [hbusy]; exact hi.one

theorem Inv.encrypt (hi : Inv s) (out : List B) : Inv (s.encrypt out) := by
  constructor
  case pre => exact hi.pre.trans (List.prefix_append _ _)
  case whole =>
    intro hf
    obtain ⟨hand, hhand, heq⟩ := hi.whole hf
    refine ⟨hand, hhand, ?_⟩
    simp only [State.encrypt, ← heq, List.append_assoc]
  case alive => exact hi.alive
  case busy => exact hi.busy
  case nodup => exact hi.nodup
  case one => exact hi.one

theorem answer_inv {c : Call} {r : Reply} (hi : Inv s) (hn : s.pc n = .calling c) :
    Inv (answer s n c r) := by
  have hnil : (s.pc n).view = [] := by rw [hn]; rfl
  unfold answer
  split <;> exact hi.move rfl hnil.symm (by rintro ⟨⟩) rfl rfl rfl id rfl

theorem resume_view (c : Call) (after : After) : (resume c after : Pc B).view = [] := by
  cases after <;> rfl

theorem resume_ne_ended (c : Call) (after : After) : (resume c after : Pc B) ≠ .ended := by
  cases after <;> rintro ⟨⟩

/-- A fiber has nothing in hand any more. -/
theorem Inv.release_busy (hi : Inv s) (hpc : t.pc = update s.pc n q) (hq : q.view = [])
    (hbusy : t.busy = s.busy.erase n) (m : ℕ) : m ∈ t.busy ↔ (t.pc m).view ≠ [] := by
  rw [hbusy, hpc]
  by_cases hmn : m = n
  · rw [hmn, update_self]
    exact iff_of_false hi.nodup.not_mem_erase fun h => h hq
  · rw [update_of_ne hmn]
    exact (List.mem_erase_of_ne hmn).trans (hi.busy m)

theorem take_inv {c : Call} {after : After} {b : B} {view : List B} (hi : Inv s)
    (hok : amiss s (.take n) = false) (hbio : s.bio = b :: view) :
    Inv (State.goto { s with bio := [], busy := n :: s.busy } n (.sending c after (b :: view))) := by
  have hempty : s.busy = [] := by simpa [amiss, hbio] using hok
  have hnil : ∀ m, (s.pc m).view = [] := by
    intro m
    by_contra hne
    have hm := (hi.busy m).mpr hne
    rw [hempty] at hm
    cases hm
  have hat : ((State.goto { s with bio := [], busy := n :: s.busy } n
      (.sending c after (b :: view))).pc n).view = b :: view := by
    simp [State.goto, Pc.view]
  have hof : ∀ m, m ≠ n → ((State.goto { s with bio := [], busy := n :: s.busy } n
      (.sending c after (b :: view))).pc m).view = [] := by
    intro m hmn
    simp only [State.goto, update_of_ne hmn]
    exact hnil m
  constructor
  case pre => exact hi.pre
  case whole =>
    intro hf
    obtain ⟨hand, hhand, heq⟩ := hi.whole hf
    have hnone : hand = [] := by
      rcases hhand with ⟨hh, -⟩ | ⟨m, hh, -⟩
      · exact hh
      · rw [hh, hnil m]
    refine ⟨b :: view, .inr ⟨n, hat.symm, hof⟩, ?_⟩
    rw [← heq, hnone, hbio]
    simp [State.goto]
  case alive =>
    intro m
    by_cases hmn : m = n
    · simp [State.goto, hmn]
    · simp only [State.goto, update_of_ne hmn]
      exact hi.alive m
  case busy =>
    intro m
    by_cases hmn : m = n
    · rw [hmn, hat]
      exact iff_of_true List.mem_cons_self (by rintro ⟨⟩)
    · rw [hof m hmn]
      refine iff_of_false ?_ fun h => h rfl
      simp [State.goto, hempty, hmn]
  case nodup => simp [State.goto, hempty]
  case one =>
    intro m e hm he
    simp only [State.goto, hempty, List.mem_singleton] at hm he
    rw [hm, he]

/-- What the fibers have in hand is the view of the fiber that sends. -/
theorem Inv.whole_of_view (hi : Inv s) (hf : s.failed = false) (hn : (s.pc n).view ≠ []) :
    (∀ m, m ≠ n → (s.pc m).view = []) ∧ s.sent ++ (s.pc n).view ++ s.bio = s.written := by
  obtain ⟨hand, hhand, heq⟩ := hi.whole hf
  rcases hhand with ⟨-, hall⟩ | ⟨m, hm, hall⟩
  · exact absurd (hall n) hn
  · have hmn : n = m := by
      by_contra hne
      exact hn (hall n hne)
    subst hmn
    rw [hm] at heq
    exact ⟨hall, heq⟩

theorem rawSend_inv {c : Call} {after : After} {view : List B} {k : ℕ} (hi : Inv s)
    (hf : s.failed = false) (hn : s.pc n = .sending c after view) (hk : 0 < k ∧ k ≤ view.length) :
    Inv (State.pump { s with sent := s.sent ++ view.take k } n c after (view.drop k)) := by
  have hview : (s.pc n).view = view := by rw [hn]; rfl
  have hne : (s.pc n).view ≠ [] := by
    rw [hview]
    rintro rfl
    exact absurd (Nat.lt_of_lt_of_le hk.1 hk.2) (Nat.lt_irrefl 0)
  obtain ⟨hothers, heq⟩ := hi.whole_of_view hf hne
  rw [hview] at heq
  have hmem : n ∈ s.busy := (hi.busy n).mpr hne
  have hpre : s.sent ++ view.take k <+: s.written := by
    rw [← heq]
    refine ⟨view.drop k ++ s.bio, ?_⟩
    simp only [List.append_assoc]
    rw [← List.append_assoc (view.take k), List.take_append_drop]
  cases hdrop : view.drop k with
  | nil =>
    have htake : view.take k = view := by
      have := List.take_append_drop k view
      rwa [hdrop, List.append_nil] at this
    constructor
    case pre => exact hpre
    case whole =>
      intro _
      refine ⟨[], .inl ⟨rfl, fun m => ?_⟩, ?_⟩
      · simp only [State.pump, State.goto]
        by_cases hmn : m = n
        · rw [hmn, update_self]
          exact resume_view c after
        · rw [update_of_ne hmn]
          exact hothers m hmn
      · simp only [State.pump, State.goto, htake, List.append_nil]
        exact heq
    case alive =>
      intro m
      simp only [State.pump, State.goto]
      by_cases hmn : m = n
      · rw [hmn, update_self]
        exact resume_ne_ended c after
      · rw [update_of_ne hmn]
        exact hi.alive m
    case busy => exact hi.release_busy rfl (resume_view c after) rfl
    case nodup => exact hi.nodup.erase n
    case one =>
      exact fun m e hm he => hi.one m e (List.mem_of_mem_erase hm) (List.mem_of_mem_erase he)
  | cons b rest =>
    have hat : ((State.pump { s with sent := s.sent ++ view.take k } n c after
        (b :: rest)).pc n).view = b :: rest := by
      simp [State.pump, State.goto, Pc.view]
    have hof : ∀ m, m ≠ n → (State.pump { s with sent := s.sent ++ view.take k } n c after
        (b :: rest)).pc m = s.pc m := fun m hmn => update_of_ne hmn _ _
    constructor
    case pre => exact hpre
    case whole =>
      intro _
      refine ⟨b :: rest, .inr ⟨n, hat.symm, fun m hmn => by rw [hof m hmn]; exact hothers m hmn⟩, ?_⟩
      simp only [State.pump, State.goto]
      rw [← hdrop, List.append_assoc s.sent, List.take_append_drop]
      exact heq
    case alive =>
      intro m
      by_cases hmn : m = n
      · simp [State.pump, State.goto, hmn]
      · rw [hof m hmn]
        exact hi.alive m
    case busy =>
      intro m
      by_cases hmn : m = n
      · rw [hmn, hat]
        exact iff_of_true hmem (by rintro ⟨⟩)
      · rw [hof m hmn]
        exact hi.busy m
    case nodup => exact hi.nodup
    case one => exact hi.one

theorem fail_inv (hi : Inv s) :
    Inv (State.goto { s with failed := true, busy := s.busy.erase n } n .outside) := by
  constructor
  case pre => exact hi.pre
  case whole => rintro ⟨⟩
  case alive =>
    intro m
    by_cases hmn : m = n
    · simp [State.goto, hmn]
    · simp only [State.goto, update_of_ne hmn]
      exact hi.alive m
  case busy => exact hi.release_busy rfl rfl rfl
  case nodup => exact hi.nodup.erase n
  case one =>
    exact fun m e hm he => hi.one m e (List.mem_of_mem_erase hm) (List.mem_of_mem_erase he)

theorem fed_inv {c : Call} {f : Feed} (hi : Inv s) (hn : s.pc n = .feeding c) :
    Inv (fed s n c f) := by
  have hnil : (s.pc n).view = [] := by rw [hn]; rfl
  have heof : (afterEof c : Pc B).view = [] := by cases c <;> rfl
  have heof' : (afterEof c : Pc B) ≠ .ended := by cases c <;> rintro ⟨⟩
  have hdry : (afterDry c : Pc B).view = [] := by cases c <;> rfl
  have hdry' : (afterDry c : Pc B) ≠ .ended := by cases c <;> rintro ⟨⟩
  unfold fed
  split
  case isTrue => exact hi.move rfl (heof.trans hnil.symm) heof' rfl rfl rfl id rfl
  case isFalse =>
    split
    · exact hi.move rfl hnil.symm (by rintro ⟨⟩) rfl rfl rfl id rfl
    · exact hi.move rfl (hdry.trans hnil.symm) hdry' rfl rfl rfl id rfl
    · exact hi.move rfl (heof.trans hnil.symm) heof' rfl rfl rfl id rfl

theorem step_inv {a : Action B} (hi : Inv s) (hok : amiss s a = false) (hs : step s a = some t) :
    Inv t := by
  cases a with
  | call n c =>
    simp only [step] at hs
    split at hs
    case h_1 hn =>
      split at hs <;> cases hs
      case isTrue => exact hi
      case isFalse => exact hi.move rfl (by rw [hn]; rfl) (by rintro ⟨⟩) rfl rfl rfl id rfl
    case h_2 => cases hs
  | ssl n out r =>
    simp only [step] at hs
    split at hs <;> cases hs
    case h_1 hn => exact answer_inv (hi.encrypt out) hn
  | take n =>
    simp only [step] at hs
    split at hs
    case h_1 c after hn =>
      split at hs <;> cases hs
      case h_1 =>
        exact hi.move rfl ((resume_view c after).trans (by rw [hn]; rfl)) (resume_ne_ended c after)
          rfl rfl rfl id rfl
      case h_2 hbio => exact take_inv hi hok hbio
    case h_2 => cases hs
  | rawSend n k =>
    simp only [step] at hs
    split at hs
    case h_1 hn =>
      split at hs <;> cases hs
      case isTrue hg =>
        simp only [Bool.and_eq_true, decide_eq_true_eq] at hg
        exact rawSend_inv hi hok hn hg.2
    case h_2 => cases hs
  | wouldBlock n =>
    simp only [step] at hs
    split at hs <;> cases hs
    case h_1 hn => exact hi.move rfl (by rw [hn]; rfl) (by rintro ⟨⟩) rfl rfl rfl id rfl
  | ready n =>
    simp only [step] at hs
    split at hs <;> cases hs
    case h_1 hn => exact hi.move rfl (by rw [hn]; rfl) (by rintro ⟨⟩) rfl rfl rfl id rfl
    case h_2 hn => exact hi.move rfl (by rw [hn]; rfl) (by rintro ⟨⟩) rfl rfl rfl id rfl
  | fail n =>
    simp only [step] at hs
    split at hs <;> cases hs
    case h_1 => exact fail_inv hi
    case h_2 => exact fail_inv hi
    case h_3 hn => exact hi.move rfl (by rw [hn]; rfl) (by rintro ⟨⟩) rfl rfl rfl (by rintro ⟨⟩) rfl
  | feed n f =>
    simp only [step] at hs
    split at hs <;> cases hs
    case h_1 hn => exact fed_inv hi hn
  | kick n =>
    cases hs
    unfold kicked
    split
    case h_1 hn => simp [amiss, hn] at hok
    case h_2 hn => simp [amiss, hn] at hok
    case h_3 => exact hi
  | close =>
    cases hs
    exact ⟨hi.pre, hi.whole, hi.alive, hi.busy, hi.nodup, hi.one⟩

end Steps

theorem reachable_inv {s : State B} (hr : Reachable (serial B) s) : Inv s := by
  refine Reachable.invariant ?_ ?_ hr
  · rintro s rfl
    exact inv_init
  · intro s a t _ hi hs
    obtain ⟨hok, hs⟩ := System.restrict_step.mp hs
    exact step_inv hi hok hs

/-- In every run that meets the condition the ciphertext leaves in order, and none of it is
lost or sent twice. -/
theorem reachable_ciphertext {s : State B} (hr : Reachable (serial B) s) : Ordered s :=
  ⟨(reachable_inv hr).pre, (reachable_inv hr).whole, (reachable_inv hr).alive⟩

/-- A short write, a wait and a second record while the first is in hand. -/
theorem reachable_ciphertext_short :
    ∃ s : State ℕ, Reachable (serial ℕ) s ∧ s.sent = [1, 2] ∧ s.bio = [4] ∧ Ordered s := by
  have hr : Reachable (serial ℕ) _ := reachable_of_run (serial ℕ)
    [.call 0 .send, .ssl 0 [1, 2, 3] .done, .take 0, .rawSend 0 2, .wouldBlock 0,
      .call 1 .closeNotify, .ssl 1 [4] .done, .kick 1, .ready 0] rfl rfl
  exact ⟨_, hr, rfl, rfl, reachable_ciphertext hr⟩

/-- The io fiber waits inside `_pump_out` for the socket and is kicked: the record it took
out of the BIO is gone, and so is the fiber. -/
theorem kick_loses_record :
    ∃ s : State ℕ, Reachable (system ℕ) s ∧ s.failed = false ∧ s.pc 0 = .ended ∧
      s.written = [1, 2, 3, 4] ∧ s.sent = [1, 4] ∧ ¬ Ordered s := by
  have hr : Reachable (system ℕ) _ := reachable_of_run (system ℕ)
    [.call 0 .send, .ssl 0 [1, 2, 3] .done, .take 0, .rawSend 0 1, .wouldBlock 0, .kick 0,
      .call 1 .closeNotify, .ssl 1 [4] .done, .take 1, .rawSend 1 1] rfl rfl
  refine ⟨_, hr, rfl, rfl, rfl, rfl, fun h => ?_⟩
  exact absurd h.pre (by decide)

/-- A second fiber takes the next record out while the first waits, and sends it first. -/
theorem records_cross :
    ∃ s : State ℕ, Reachable (system ℕ) s ∧ s.failed = false ∧
      s.written = [1, 2, 3, 4] ∧ s.sent = [1, 4, 2, 3] ∧ ¬ Ordered s := by
  have hr : Reachable (system ℕ) _ := reachable_of_run (system ℕ)
    [.call 0 .send, .ssl 0 [1, 2, 3] .done, .take 0, .rawSend 0 1, .wouldBlock 0,
      .call 1 .closeNotify, .ssl 1 [4] .done, .take 1, .rawSend 1 1, .ready 0, .rawSend 0 2] rfl rfl
  refine ⟨_, hr, rfl, rfl, rfl, fun h => ?_⟩
  exact absurd h.pre (by decide)

end Stackweave.Aio.TlsBio
