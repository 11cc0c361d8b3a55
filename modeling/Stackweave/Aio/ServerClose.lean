import Mathlib.Data.List.Nodup
import Mathlib.Logic.Function.Basic
import Mathlib.Tactic.Common
import Stackweave.Transition

/-!
# The end of a server (`aio/transport_server.py`, `aio/transport_stream.py`)

`_ProtocolServer` accepts connections and puts each into `_conns` when its transport is made, with
TLS only after a handshake in a fiber of its own. A connection that ends takes itself off the set.
`wait_closed` returns when the server is closed and the set is empty. Callbacks of the protocol may
take any time, and anything may happen meanwhile.

* `wait_closed_waits`: what `wait_closed` waits for, in the runs in which no connection is being set
  up when the server is closed and none ends before it is in the set.
* `wait_closed_misses`: what happens otherwise.
-/

namespace Stackweave.Aio.ServerClose

open Transition Function

/-- A transport: `closing` has its `_deliver` scheduled, `lost` is in `connection_lost`. -/
inductive Life
  | live
  | closing
  | lost
  | gone
  deriving DecidableEq

inductive Conn
  | absent
  /-- in `do_handshake` -/
  | handshake
  /-- in the protocol factory -/
  | factory
  /-- in the constructor of the transport, which calls `connection_made` -/
  | making (l : Life)
  /-- it was put into the set -/
  | up (l : Life)
  /-- the handshake has failed, or the factory or the constructor -/
  | dropped
  deriving DecidableEq

/-- A call of `wait_closed`. -/
inductive Wait
  | idle
  | waiting
  /-- its future is done -/
  | woken
  | returned
  deriving DecidableEq

/-- Connections are numbered as they are accepted. `waiters` is `_waiters`. -/
structure State where
  ssl : Bool
  closed : Bool
  next : ℕ
  conn : ℕ → Conn
  conns : List ℕ
  waiters : Option (List ℕ)
  wait : ℕ → Wait

def start (ssl : Bool) : State where
  ssl := ssl
  closed := false
  next := 0
  conn _ := .absent
  conns := []
  waiters := some []
  wait _ := .idle

inductive Action
  /-- `_accept_loop` -/
  | accept
  | handshakeDone (i : ℕ)
  | handshakeFails (i : ℕ)
  | factoryFails (i : ℕ)
  /-- the factory returns, and the constructor calls `connection_made` -/
  | construct (i : ℕ)
  /-- the constructor returns: `_conns.add` -/
  | register (i : ℕ)
  /-- the transport is closed with nothing queued, fails, or has sent what was queued -/
  | ends (i : ℕ)
  /-- `_deliver` calls `connection_lost`, and goes on behind it -/
  | lose (i : ℕ)
  | detach (i : ℕ)
  | close
  /-- `close_clients`: some have output queued and end later -/
  | closeClients (queued : List ℕ)
  | abortClients
  | waitClosed (w : ℕ)
  | returns (w : ℕ)

def Conn.withLife : Conn → Life → Conn
  | .making _, l => .making l
  | .up _, l => .up l
  | c, _ => c

def Conn.life : Conn → Option Life
  | .making l | .up l => some l
  | _ => none

namespace State

variable (s : State)

def setConn (i : ℕ) (c : Conn) : State := { s with conn := Function.update s.conn i c }

/-- `_wakeup` -/
def wakeup : State :=
  match s.waiters with
  | none => s
  | some ws => { s with waiters := none, wait := fun w => if w ∈ ws then .woken else s.wait w }

/-- `_detach` -/
def detach (i : ℕ) : State :=
  let t := { s with conns := s.conns.erase i }
  if t.closed = true ∧ t.conns = [] then t.wakeup else t

/-- `close` -/
def close : State :=
  if s.closed then s
  else
    let t := { s with closed := true }
    if t.conns = [] then t.wakeup else t

/-- The transports of the set are closed, but for the ones that have output queued. -/
def endClients (queued : List ℕ) : State :=
  { s with
    conn := fun i =>
      if i ∈ s.conns ∧ i ∉ queued ∧ (s.conn i).life = some .live then (s.conn i).withLife .closing
      else s.conn i }

end State

def step (s : State) : Action → Option State
  | .accept =>
    if s.closed then none
    else some { s.setConn s.next (if s.ssl then .handshake else .factory) with next := s.next + 1 }
  | .handshakeDone i => if s.conn i = .handshake then some (s.setConn i .factory) else none
  | .handshakeFails i => if s.conn i = .handshake then some (s.setConn i .dropped) else none
  | .factoryFails i => if s.conn i = .factory then some (s.setConn i .dropped) else none
  | .construct i => if s.conn i = .factory then some (s.setConn i (.making .live)) else none
  | .register i =>
    match s.conn i with
    | .making l => some { s.setConn i (.up l) with conns := i :: s.conns }
    | _ => none
  | .ends i =>
    if (s.conn i).life = some .live then some (s.setConn i ((s.conn i).withLife .closing)) else none
  | .lose i =>
    if (s.conn i).life = some .closing then some (s.setConn i ((s.conn i).withLife .lost)) else none
  | .detach i =>
    if (s.conn i).life = some .lost then
      some ((s.setConn i ((s.conn i).withLife .gone)).detach i)
    else none
  | .close => some s.close
  | .closeClients queued => some (s.endClients queued)
  | .abortClients => some (s.endClients [])
  | .waitClosed w =>
    if s.wait w = .idle then
      match s.waiters with
      | none => some { s with wait := Function.update s.wait w .returned }
      | some ws => some { s with waiters := some (ws ++ [w]), wait := Function.update s.wait w .waiting }
    else none
  | .returns w =>
    if s.wait w = .woken then some { s with wait := Function.update s.wait w .returned } else none

def system (ssl : Bool) : System State Action where
  init s := s = start ssl
  step := step

/-! ## What it promises -/

/-- The connection has ended. -/
def Conn.finished : Conn → Bool
  | .making .gone | .up .gone | .dropped => true
  | _ => false

/-- A callback for the connection is in progress. -/
def Conn.inCallback : Conn → Bool
  | .factory | .making _ | .up .lost => true
  | _ => false

/-- `wait_closed` returns only when the server is closed and every connection has finished, and it does
not stay pending when both hold. -/
structure Sound (s : State) : Prop where
  waits : ∀ w, s.wait w = .returned →
    s.closed = true ∧ ∀ i, s.conn i ≠ .absent → (s.conn i).finished = true
  wakes : s.closed = true → (∀ i, s.conn i ≠ .absent → (s.conn i).finished = true) →
    (∀ i, (s.conn i).inCallback = false) → ∀ w, s.wait w ≠ .waiting

/-- Accepted, and not yet put into the set. -/
def Conn.inSetup : Conn → Bool
  | .handshake | .factory | .making _ => true
  | _ => false

/-- The server is closed while no connection is being set up, and no connection ends before it is in
the set. -/
def Orderly (s : State) : Action → Prop
  | .close => s.closed = false → ∀ i < s.next, (s.conn i).inSetup = false
  | .detach i => (s.conn i).inSetup = false
  | _ => True

instance (s : State) (a : Action) : Decidable (Orderly s a) := by
  cases a <;> unfold Orderly <;> infer_instance

/-! ## The invariant -/

/-- In the set. -/
def Conn.held : Conn → Bool
  | .up .live | .up .closing | .up .lost => true
  | _ => false

/-- What holds also before a `_wakeup` that is due. -/
structure Pre (s : State) : Prop where
  fresh : ∀ i, s.next ≤ i → s.conn i = .absent
  settled : s.closed = true → ∀ i, (s.conn i).inSetup = false
  /-- nothing ends in the set-up -/
  making : ∀ i, s.conn i ≠ .making .gone
  held : ∀ i, i ∈ s.conns ↔ (s.conn i).held = true
  nodup : s.conns.Nodup
  emptied : s.waiters = none → s.closed = true ∧ s.conns = []
  waiting : ∀ w, s.wait w = .waiting ↔ ∃ ws, s.waiters = some ws ∧ w ∈ ws
  returned : ∀ w, s.wait w = .woken ∨ s.wait w = .returned → s.waiters = none

structure Inv (s : State) : Prop extends Pre s where
  woken : s.closed = true → s.conns = [] → s.waiters = none

variable {s t : State}

theorem inv_start (ssl : Bool) : Inv (start ssl) where
  fresh _ _ := rfl
  settled _ _ := rfl
  making := nofun
  held _ := iff_of_false nofun nofun
  nodup := List.nodup_nil
  emptied := nofun
  waiting _ := iff_of_false nofun (by rintro ⟨ws, h, hw⟩; cases h; cases hw)
  returned := by rintro w (h | h) <;> cases h
  woken := (by intros; contradiction)

/-- `_wakeup` where it is due. -/
theorem Pre.settle (h : Pre s) : Inv (if s.closed = true ∧ s.conns = [] then s.wakeup else s) := by
  split
  · rename_i hdue
    unfold State.wakeup
    split
    · rename_i hnone
      exact ⟨h, fun _ _ => hnone⟩
    · rename_i ws hws
      refine ⟨⟨h.fresh, h.settled, h.making, h.held, h.nodup, fun _ => hdue, fun w => ?_,
        fun _ _ => rfl⟩, fun _ _ => rfl⟩
      refine iff_of_false (fun hw => ?_) nofun
      simp only at hw
      split at hw
      · cases hw
      · rename_i hno
        obtain ⟨us, hus, hmem⟩ := (h.waiting w).mp hw
        rw [hws] at hus
        cases hus
        exact hno hmem
  · rename_i hdue
    exact ⟨h, fun hc hempty => absurd ⟨hc, hempty⟩ hdue⟩

/-! ## The steps -/

variable {i : ℕ} {c : Conn}

/-- A connection moves on, and the set with it. -/
theorem Inv.move {cs : List ℕ} (h : Inv s) (hborn : s.conn i ≠ .absent)
    (hsetup : c.inSetup = true → (s.conn i).inSetup = true) (hmaking : c ≠ .making .gone)
    (hself : i ∈ cs ↔ c.held = true) (hother : ∀ j, j ≠ i → (j ∈ cs ↔ j ∈ s.conns))
    (hnodup : cs.Nodup) (hover : s.closed = true → s.conns = [] → cs = []) :
    Pre { s.setConn i c with conns := cs } := by
  have hi : (s.setConn i c).conn i = c := update_self _ _ _
  have hj (j : ℕ) (hne : j ≠ i) : (s.setConn i c).conn j = s.conn j := update_of_ne hne _ _
  refine ⟨fun j hjn => ?_, fun hc j => ?_, fun j => ?_, fun j => ?_, hnodup, fun hnone => ?_, h.waiting,
    h.returned⟩
  · have hne : j ≠ i := by
      rintro rfl
      exact hborn (h.fresh j hjn)
    exact (hj j hne).trans (h.fresh j hjn)
  · by_cases hne : j = i
    · subst hne
      simp only [hi]
      by_contra hno
      have := hsetup (by simpa using hno)
      rw [h.settled hc j] at this
      cases this
    · simp only [hj j hne]
      exact h.settled hc j
  · by_cases hne : j = i
    · subst hne
      simp only [hi]
      exact hmaking
    · simp only [hj j hne]
      exact h.making j
  · by_cases hne : j = i
    · subst hne
      simp only [hi]
      exact hself
    · simp only [hj j hne]
      exact (hother j hne).trans (h.held j)
  · obtain ⟨hc, hempty⟩ := h.emptied hnone
    exact ⟨hc, hover hc hempty⟩

/-- A connection moves on and stays in the set or out of it. -/
theorem Inv.setConn (h : Inv s) (hborn : s.conn i ≠ .absent)
    (hsetup : c.inSetup = true → (s.conn i).inSetup = true) (hmaking : c ≠ .making .gone)
    (hheld : c.held = (s.conn i).held) : Inv (s.setConn i c) :=
  ⟨h.move hborn hsetup hmaking ((h.held i).trans (by rw [hheld])) (fun _ _ => Iff.rfl) h.nodup
    fun _ he => he, h.woken⟩

/-- The transport of a connection gets a step closer to its end. -/
theorem Inv.withLife {l l' : Life} (h : Inv s) (hl : (s.conn i).life = some l)
    (hgone : l ≠ .gone) (hgone' : l' ≠ .gone) : Inv (s.setConn i ((s.conn i).withLife l')) := by
  cases hc : s.conn i with
  | absent | handshake | factory | dropped =>
    rw [hc] at hl
    cases hl
  | making m =>
    refine h.setConn (by rw [hc]; nofun) (by rw [hc]; exact fun _ => rfl) ?_ (by rw [hc]; rfl)
    simpa [Conn.withLife] using hgone'
  | up m =>
    rw [hc] at hl
    cases hl
    refine h.setConn (by rw [hc]; nofun) nofun nofun ?_
    rw [hc]
    cases l <;> cases l' <;> first | rfl | exact absurd rfl hgone | exact absurd rfl hgone'

theorem Inv.accept (h : Inv s) (hc : s.closed = false) :
    Inv { s.setConn s.next (if s.ssl then .handshake else .factory) with next := s.next + 1 } := by
  have hnew : (if s.ssl then Conn.handshake else .factory).held = false ∧
      (if s.ssl then Conn.handshake else .factory) ≠ .making .gone := by
    split <;> exact ⟨rfl, nofun⟩
  have hj (j : ℕ) (hne : j ≠ s.next) :
      (s.setConn s.next (if s.ssl then .handshake else .factory)).conn j = s.conn j :=
    update_of_ne hne _ _
  have hi : (s.setConn s.next (if s.ssl then .handshake else .factory)).conn s.next =
      if s.ssl then .handshake else .factory := update_self _ _ _
  refine ⟨⟨fun j hjn => ?_, fun hc' => ?_, fun j => ?_, fun j => ?_, h.nodup, h.emptied, h.waiting,
    h.returned⟩, h.woken⟩
  · exact (hj j (Nat.ne_of_gt hjn)).trans (h.fresh j (Nat.le_of_succ_le hjn))
  · exact absurd (hc.symm.trans hc') nofun
  · by_cases hne : j = s.next
    · subst hne
      simp only [hi]
      exact hnew.2
    · simp only [hj j hne]
      exact h.making j
  · by_cases hne : j = s.next
    · subst hne
      simp only [hi, hnew.1]
      refine iff_of_false (fun hmem => ?_) nofun
      have hheld := (h.held _).mp hmem
      rw [h.fresh _ (Nat.le_refl _)] at hheld
      cases hheld
    · simp only [hj j hne]
      exact h.held j

theorem Inv.register {l : Life} (h : Inv s) (hc : s.conn i = .making l) :
    Inv { s.setConn i (.up l) with conns := i :: s.conns } := by
  have hopen : s.closed = false := by
    by_contra hclosed
    have := h.settled (by simpa using hclosed) i
    rw [hc] at this
    cases this
  have hl : l ≠ .gone := by
    rintro rfl
    exact h.making i hc
  have hnew : i ∉ s.conns := by
    rw [h.held, hc]
    nofun
  refine ⟨h.move (by rw [hc]; nofun) nofun nofun ?_ (fun j hj => ?_)
    (List.nodup_cons.mpr ⟨hnew, h.nodup⟩) (fun hclosed => ?_), fun hclosed => ?_⟩
  · refine iff_of_true List.mem_cons_self ?_
    cases l <;> first | rfl | exact absurd rfl hl
  · rw [List.mem_cons, or_iff_right hj]
  · exact absurd (hopen.symm.trans hclosed) nofun
  · exact absurd (hopen.symm.trans hclosed) nofun

theorem Inv.detach (h : Inv s) (hl : (s.conn i).life = some .lost)
    (hsetup : (s.conn i).inSetup = false) :
    Inv ((s.setConn i ((s.conn i).withLife .gone)).detach i) := by
  cases hc : s.conn i with
  | absent | handshake | factory | dropped =>
    rw [hc] at hl
    cases hl
  | making m =>
    rw [hc] at hsetup
    cases hsetup
  | up m =>
    refine Pre.settle (h.move (by rw [hc]; nofun) nofun nofun ?_ (fun j hj => ?_) (h.nodup.erase i)
      fun _ hempty => ?_)
    · exact iff_of_false (List.Nodup.not_mem_erase h.nodup) nofun
    · exact List.mem_erase_of_ne hj
    · change s.conns.erase i = []
      rw [hempty]
      rfl

theorem Inv.close (h : Inv s)
    (hsetup : s.closed = false → ∀ i < s.next, (s.conn i).inSetup = false) : Inv s.close := by
  unfold State.close
  split
  · exact h
  · rename_i hopen
    have hpre : Pre { s with closed := true } := by
      refine ⟨h.fresh, fun _ i => ?_, h.making, h.held, h.nodup, fun hnone => ⟨rfl, (h.emptied hnone).2⟩,
        h.waiting, h.returned⟩
      rcases Nat.lt_or_ge i s.next with hi | hi
      · exact hsetup (by simpa using hopen) i hi
      · simp only [h.fresh i hi]
        rfl
    have hinv := hpre.settle
    simpa using hinv

theorem Inv.endClients (h : Inv s) (queued : List ℕ) : Inv (s.endClients queued) := by
  -- a transport of the set stays in it until it is detached
  have hconn (i : ℕ) : (s.endClients queued).conn i = s.conn i ∨
      s.conn i = .up .live ∧ (s.endClients queued).conn i = .up .closing := by
    simp only [State.endClients]
    split
    · rename_i hi
      obtain ⟨hmem, -, hlife⟩ := hi
      have hheld := (h.held i).mp hmem
      cases hc : s.conn i with
      | up l =>
        rw [hc] at hlife
        cases hlife
        exact .inr ⟨rfl, rfl⟩
      | absent | handshake | factory | making | dropped =>
        rw [hc] at hheld
        cases hheld
    · exact .inl rfl
  refine ⟨⟨fun i hi => ?_, fun hc i => ?_, fun i => ?_, fun i => ?_, h.nodup, h.emptied, h.waiting,
    h.returned⟩, h.woken⟩
  · rcases hconn i with heq | ⟨hlive, -⟩
    · exact heq.trans (h.fresh i hi)
    · rw [h.fresh i hi] at hlive
      cases hlive
  · rcases hconn i with heq | ⟨-, heq⟩
    · rw [heq]
      exact h.settled hc i
    · rw [heq]
      rfl
  · rcases hconn i with heq | ⟨-, heq⟩
    · rw [heq]
      exact h.making i
    · rw [heq]
      nofun
  · rcases hconn i with heq | ⟨hlive, heq⟩
    · rw [heq]
      exact h.held i
    · refine (h.held i).trans ?_
      rw [heq, hlive]
      rfl

theorem Inv.waitClosed {w : ℕ} (h : Inv s) (hs : step s (.waitClosed w) = some t) : Inv t := by
  obtain ⟨hidle, hs⟩ := Option.ite_none_right_eq_some.mp hs
  split at hs
  · rename_i hnone
    cases hs
    refine ⟨⟨h.fresh, h.settled, h.making, h.held, h.nodup, h.emptied, fun v => ?_, fun _ _ => hnone⟩,
      h.woken⟩
    refine iff_of_false (fun hv => ?_) (by rintro ⟨ws, hws, -⟩; cases hnone.symm.trans hws)
    by_cases hvw : v = w
    · subst hvw
      simp at hv
    · simp only [update_of_ne hvw] at hv
      obtain ⟨ws, hws, -⟩ := (h.waiting v).mp hv
      cases hnone.symm.trans hws
  · rename_i ws hws
    cases hs
    refine ⟨⟨h.fresh, h.settled, h.making, h.held, h.nodup, (by intros; contradiction), fun v => ?_, fun v hv => ?_⟩,
      fun hc he => ?_⟩
    · by_cases hvw : v = w
      · subst hvw
        refine iff_of_true (update_self _ _ _) ⟨_, rfl, ?_⟩
        exact List.mem_append_right _ List.mem_cons_self
      · simp only [update_of_ne hvw]
        rw [h.waiting v, hws]
        simp [hvw]
    · have hvw : v ≠ w := by
        rintro rfl
        simp at hv
      simp only [update_of_ne hvw] at hv
      cases hws.symm.trans (h.returned v hv)
    · cases hws.symm.trans (h.woken hc he)

theorem Inv.returns {w : ℕ} (h : Inv s) (hw : s.wait w = .woken) :
    Inv { s with wait := update s.wait w .returned } := by
  have hnone := h.returned w (.inl hw)
  refine ⟨⟨h.fresh, h.settled, h.making, h.held, h.nodup, h.emptied, fun v => ?_, fun _ _ => hnone⟩,
    h.woken⟩
  by_cases hvw : v = w
  · subst hvw
    refine iff_of_false (by simp) ?_
    rintro ⟨ws, hws, -⟩
    cases hnone.symm.trans hws
  · simp only [update_of_ne hvw]
    exact h.waiting v

theorem Inv.step {a : Action} (h : Inv s) (ho : Orderly s a) (hs : step s a = some t) : Inv t := by
  cases a with
  | accept =>
    obtain ⟨hc, hs⟩ := Option.ite_none_left_eq_some.mp hs
    cases hs
    exact h.accept (by simpa using hc)
  | handshakeDone i | handshakeFails i | factoryFails i | construct i =>
    obtain ⟨hc, hs⟩ := Option.ite_none_right_eq_some.mp hs
    cases hs
    exact h.setConn (by rw [hc]; nofun) (by rw [hc]; exact fun _ => rfl) nofun (by rw [hc]; rfl)
  | register i =>
    simp only [ServerClose.step] at hs
    split at hs
    · rename_i l hc
      cases hs
      exact h.register hc
    · cases hs
  | ends i | lose i =>
    obtain ⟨hl, hs⟩ := Option.ite_none_right_eq_some.mp hs
    cases hs
    exact h.withLife hl nofun nofun
  | detach i =>
    obtain ⟨hl, hs⟩ := Option.ite_none_right_eq_some.mp hs
    cases hs
    exact h.detach hl ho
  | close =>
    cases hs
    exact h.close ho
  | closeClients queued =>
    cases hs
    exact h.endClients queued
  | abortClients =>
    cases hs
    exact h.endClients []
  | waitClosed w => exact h.waitClosed hs
  | returns w =>
    obtain ⟨hw, hs⟩ := Option.ite_none_right_eq_some.mp hs
    cases hs
    exact h.returns hw

/-- Behind the set-up a connection is in the set or has finished. -/
theorem Conn.finished_of_not_held (hborn : c ≠ .absent) (hsetup : c.inSetup = false)
    (hheld : c.held = false) : c.finished = true := by
  cases c with
  | up l => cases l <;> first | rfl | cases hheld
  | dropped => rfl
  | absent => exact absurd rfl hborn
  | handshake | factory | making => cases hsetup

theorem Conn.not_finished_of_held (hheld : c.held = true) : ¬c.finished = true := by
  cases c with
  | up l =>
    cases l with
    | gone => cases hheld
    | live | closing | lost => nofun
  | absent | handshake | factory | making | dropped => cases hheld

theorem Inv.sound (h : Inv s) : Sound s where
  waits w hw := by
    obtain ⟨hc, hempty⟩ := h.emptied (h.returned w (.inr hw))
    refine ⟨hc, fun i hborn => Conn.finished_of_not_held hborn (h.settled hc i) ?_⟩
    by_contra hheld
    have hmem := (h.held i).mpr (by simpa using hheld)
    rw [hempty] at hmem
    cases hmem
  wakes hc hall _ w hw := by
    have hempty : s.conns = [] := by
      rw [List.eq_nil_iff_forall_not_mem]
      intro i hi
      have hheld := (h.held i).mp hi
      have hfin := hall i (by rintro heq; rw [heq] at hheld; cases hheld)
      exact Conn.not_finished_of_held hheld hfin
    obtain ⟨ws, hws, -⟩ := (h.waiting w).mp hw
    cases hws.symm.trans (h.woken hc hempty)

theorem wait_closed_waits (ssl : Bool) {s : State}
    (h : Reachable ((system ssl).restrict Orderly) s) : Sound s := by
  have hi : Inv s := by
    refine h.invariant ?_ fun s a t _ hs hstep => ?_
    · rintro s rfl
      exact inv_start ssl
    · obtain ⟨ho, hstep⟩ := System.restrict_step.mp hstep
      exact hs.step ho hstep
  exact hi.sound

/-- A connection is up, the server is closed and waited for, and the connection ends. -/
def drainOne : List Action :=
  [.accept, .handshakeDone 0, .construct 0, .register 0, .close, .waitClosed 0, .ends 0, .lose 0,
    .detach 0, .returns 0]

theorem wait_closed_waits_drainOne :
    ∃ s, ((system true).restrict Orderly).run (start true) drainOne = some s ∧
      s.wait 0 = .returned ∧ s.conn 0 = .up .gone ∧ Sound s := by
  have hrun : (((system true).restrict Orderly).run (start true) drainOne).any (fun s =>
      s.wait 0 = .returned ∧ s.conn 0 = .up .gone) = true := by
    decide +kernel
  obtain ⟨s, hs, hp⟩ := (Option.any_eq_true _ _).mp hrun
  obtain ⟨hwait, hconn⟩ := of_decide_eq_true hp
  exact ⟨s, hs, hwait, hconn,
    wait_closed_waits true (reachable_of_run (System.restrict _ _) drainOne rfl hs)⟩

/-- The server is closed during a handshake: `wait_closed` returns, and the connection comes up after
it. Or a connection ends in its `connection_made`: it stays in the set, and `wait_closed` does not
return. -/
theorem wait_closed_misses :
    (∃ s, (system true).run (start true)
        [.accept, .close, .waitClosed 0, .handshakeDone 0, .construct 0, .register 0] = some s ∧
      s.wait 0 = .returned ∧ s.conn 0 = .up .live ∧ ¬Sound s) ∧
    ∃ s, (system false).run (start false)
        [.accept, .construct 0, .ends 0, .lose 0, .detach 0, .register 0, .waitClosed 0, .close] =
          some s ∧
      s.closed = true ∧ s.conn 0 = .up .gone ∧ s.wait 0 = .waiting ∧ ¬Sound s := by
  refine ⟨⟨_, rfl, rfl, rfl, fun h => ?_⟩, ⟨_, rfl, rfl, rfl, rfl, fun h => ?_⟩⟩
  · cases (h.waits 0 rfl).2 0 nofun
  · refine h.wakes rfl (fun i hi => ?_) (fun i => ?_) 0 rfl
    · cases i with
      | zero => rfl
      | succ i => exact absurd rfl hi
    · cases i <;> rfl

end Stackweave.Aio.ServerClose
