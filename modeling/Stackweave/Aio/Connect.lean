import Mathlib.Data.List.Basic
import Mathlib.Tactic.Common

/-!
# Connecting (`aio/streams_api.py`, `aio/loop_net.py`, `aio/tls_wrap.py`)

`open_connection` and `create_connection` try the resolved addresses in turn, each in a copy of the
loop of its own, and then make the connection into a TLS one and hand it to what they return. What
the socket calls, the handshake, the protocol factory and a cancellation do is an input. The sockets
are numbered by the address they were made for.

* `connects_iff`: when the calls try every address and leave no socket behind.
* `connect_leaks`: what they do otherwise.
-/

namespace Stackweave.Aio.Connect

structure OSError where
  errno : Option ℕ
  text : String
  deriving DecidableEq

inductive Exc
  | osError (e : OSError)
  /-- `UnboundLocalError`: a local name is used before it has a value -/
  | unbound
  | cancelled
  /-- of the handshake, and of the protocol factory -/
  | tls (message : String)
  | factory (message : String)
  deriving DecidableEq

/-- What `_wait_fd` and then `SO_ERROR` say of a connect that is under way. -/
inductive Waited
  | done
  | refused (err : ℕ)
  | raised (e : OSError)
  | cancelled

inductive Connected
  | atOnce
  | failed (e : OSError)
  /-- `BlockingIOError` -/
  | waits (w : Waited)

/-- What the calls for one address do, `none` for success. -/
structure Address where
  socket : Option OSError
  bind : Option OSError
  connect : Connected

/-- The part of the `try` behind the creation of the socket. `localAddr` is how the local address
prints, if there is one. -/
def attach (onBind : OSError → OSError) (localAddr : Option String) (a : Address) : Except Exc Unit :=
  match if localAddr.isSome then a.bind else none with
  | some e => .error (.osError (onBind e))
  | none =>
    match a.connect with
    | .atOnce => .ok ()
    | .failed e => .error (.osError e)
    | .waits .done => .ok ()
    | .waits (.refused err) =>
      if err = 0 then .ok () else .error (.osError ⟨some err, "connect failed"⟩)
    | .waits (.raised e) => .error (.osError e)
    | .waits .cancelled => .error .cancelled

def couldNotConnect : OSError := ⟨none, "could not connect"⟩

/-- The loop of `open_connection`, with the local name `s`, the sockets that are open and the last
error. `s.close()` is called also where this address has no socket. -/
def openLoop (localAddr : Option String) :
    ℕ → List Address → Option ℕ → List ℕ → Option OSError → Except Exc ℕ × List ℕ
  | _, [], _, live, last => (.error (.osError (last.getD couldNotConnect)), live)
  | i, a :: rest, s, live, _ =>
    match a.socket with
    | some e =>
      match s with
      | none => (.error .unbound, live)
      | some k => openLoop localAddr (i + 1) rest (some k) (live.erase k) (some e)
    | none =>
      match attach id localAddr a with
      | .ok () => (.ok i, i :: live)
      | .error (.osError e) => openLoop localAddr (i + 1) rest (some i) ((i :: live).erase i) (some e)
      | .error e => (.error e, i :: live)

/-- The `OSError` that `create_connection` raises for one of `bind`. -/
def bindError (localAddr : Option String) (e : OSError) : OSError :=
  ⟨e.errno, "error while attempting to bind on address " ++ localAddr.getD "None" ++ ": " ++
    e.text.toLower⟩

/-- The loop of `create_connection`, which sets `s` to `None` first. -/
def createLoop (localAddr : Option String) :
    ℕ → List Address → List ℕ → Option OSError → Except Exc ℕ × List ℕ
  | _, [], live, last => (.error (.osError (last.getD couldNotConnect)), live)
  | i, a :: rest, live, _ =>
    match a.socket with
    | some e => createLoop localAddr (i + 1) rest live (some e)
    | none =>
      match attach (bindError localAddr) localAddr a with
      | .ok () => (.ok i, i :: live)
      | .error (.osError e) => createLoop localAddr (i + 1) rest ((i :: live).erase i) (some e)
      | .error e => (.error e, i :: live)

inductive Handshake
  | done
  | failed (message : String)
  | cancelled

/-- `factory` is the exception of the protocol factory. -/
structure Call where
  addrs : List Address
  localAddr : Option String
  ssl : Bool
  handshake : Handshake
  factory : Option String

/-- `_tls_wrap_client` -/
def tlsWrapClient (c : Call) (sock : ℕ) : Except Exc ℕ :=
  match c.handshake with
  | .done => .ok sock
  | .failed message => .error (.tls message)
  | .cancelled => .error .cancelled

/-- What comes after the loop. -/
def secure (c : Call) (sock : ℕ) : Except Exc ℕ := if c.ssl then tlsWrapClient c sock else .ok sock

/-- The socket of the reader and writer that are returned, and the sockets that are open. -/
def openConnection (c : Call) : Except Exc ℕ × List ℕ :=
  let r := openLoop c.localAddr 0 c.addrs none [] none
  (r.1 >>= secure c, r.2)

def callFactory (c : Call) (sock : ℕ) : Except Exc ℕ :=
  match c.factory with
  | none => .ok sock
  | some message => .error (.factory message)

/-- The socket of the transport that is returned, and the sockets that are open. -/
def createConnection (c : Call) : Except Exc ℕ × List ℕ :=
  let r := createLoop c.localAddr 0 c.addrs [] none
  (r.1 >>= secure c >>= callFactory c, r.2)

/-! ## What they promise -/

inductive Api
  | opens
  | creates
  deriving DecidableEq

def Api.run : Api → Call → Except Exc ℕ × List ℕ
  | .opens => openConnection
  | .creates => createConnection

/-- The text of the error of a `bind`. -/
def Api.onBind : Api → Call → OSError → OSError
  | .opens, _ => id
  | .creates, c => bindError c.localAddr

/-- What becomes of the connection behind the loop. -/
def Api.finish : Api → Call → ℕ → Except Exc ℕ
  | .opens, c, sock => secure c sock
  | .creates, c, sock => secure c sock >>= callFactory c

/-- How the steps for one address end. -/
def Address.outcome (onBind : OSError → OSError) (localAddr : Option String) (a : Address) :
    Except Exc Unit :=
  match a.socket with
  | some e => .error (.osError e)
  | none => attach onBind localAddr a

def outcomes (api : Api) (c : Call) : List (Except Exc Unit) :=
  c.addrs.map (Address.outcome (api.onBind c) c.localAddr)

/-- The wait for a connect is cancelled before any address has succeeded. -/
def Cancelled (os : List (Except Exc Unit)) : Prop :=
  .error .cancelled ∈ os.takeWhile fun o => !o.isOk

instance (os : List (Except Exc Unit)) : Decidable (Cancelled os) := by
  unfold Cancelled
  infer_instance

def asOSError : Except Exc Unit → Option OSError
  | .error (.osError e) => some e
  | _ => none

/-- The first address all of whose steps succeed is connected to. Where there is none the last
`OSError` is raised, and only a cancellation comes before that. No socket is left but the one that
the result owns. -/
structure Connects (api : Api) (c : Call) : Prop where
  first : ¬Cancelled (outcomes api c) → ∀ i,
    (outcomes api c).findIdx? (fun o => o.isOk) = some i → (api.run c).1 = api.finish c i
  last : ¬Cancelled (outcomes api c) → (∀ o ∈ outcomes api c, o.isOk = false) →
    (api.run c).1 = .error (.osError
      (((outcomes api c).filterMap asOSError).getLast?.getD couldNotConnect))
  cancelled : Cancelled (outcomes api c) → (api.run c).1 = .error .cancelled
  closed : (api.run c).2 = match (api.run c).1 with
    | .ok i => [i]
    | .error _ => []

/-- No wait is cancelled, where an address succeeds the TLS handshake and the protocol factory do not
fail, and `open_connection` gets a socket for the first address. -/
structure Smooth (api : Api) (c : Call) : Prop where
  socket : api = .opens → ∀ a, c.addrs.head? = some a → a.socket = none
  waits : ¬Cancelled (outcomes api c)
  handshake : (∃ o ∈ outcomes api c, o.isOk) → c.ssl = true → c.handshake = .done
  factory : (∃ o ∈ outcomes api c, o.isOk) → api = .creates → c.factory = none

/-! ## The loops -/

inductive Ending
  | connected (i : ℕ)
  | failed (last : Option OSError)
  | cancelled (i : ℕ)

/-- Both loops, without their sockets. -/
def walk : ℕ → List (Except Exc Unit) → Option OSError → Ending
  | _, [], last => .failed last
  | i, .ok () :: _, _ => .connected i
  | i, .error (.osError e) :: rest, _ => walk (i + 1) rest (some e)
  | i, .error _ :: _, _ => .cancelled i

/-- What a loop gives and leaves open. -/
def Ending.result : Ending → Except Exc ℕ × List ℕ
  | .connected i => (.ok i, [i])
  | .failed last => (.error (.osError (last.getD couldNotConnect)), [])
  | .cancelled i => (.error .cancelled, [i])

/-- The exceptions of the steps for an address. -/
theorem attach_error {onBind : OSError → OSError} {localAddr : Option String} {a : Address}
    {e : Exc} (h : attach onBind localAddr a = .error e) : (∃ o, e = .osError o) ∨ e = .cancelled := by
  unfold attach at h
  split at h
  · cases h
    exact .inl ⟨_, rfl⟩
  · split at h
    · cases h
    · cases h
      exact .inl ⟨_, rfl⟩
    · cases h
    · split at h
      · cases h
      · cases h
        exact .inl ⟨_, rfl⟩
    · cases h
      exact .inl ⟨_, rfl⟩
    · cases h
      exact .inr rfl

theorem createLoop_eq (localAddr : Option String) (i : ℕ) (addrs : List Address)
    (last : Option OSError) :
    createLoop localAddr i addrs [] last =
      (walk i (addrs.map (Address.outcome (bindError localAddr) localAddr)) last).result := by
  induction addrs generalizing i last with
  | nil => rfl
  | cons a rest ih =>
    rw [List.map_cons, createLoop, Address.outcome]
    cases hs : a.socket with
    | some e => exact ih _ _
    | none =>
      cases ha : attach (bindError localAddr) localAddr a with
      | ok u => rfl
      | error e =>
        rcases attach_error ha with ⟨o, rfl⟩ | rfl
        · simp only [List.erase_cons_head]
          exact ih _ _
        · rfl

/-- Once `s` has a value, which is the number of an earlier address. -/
theorem openLoop_eq (localAddr : Option String) (i k : ℕ) (addrs : List Address)
    (last : Option OSError) :
    openLoop localAddr i addrs (some k) [] last =
      (walk i (addrs.map (Address.outcome id localAddr)) last).result := by
  induction addrs generalizing i k last with
  | nil => rfl
  | cons a rest ih =>
    rw [List.map_cons, openLoop, Address.outcome]
    cases hs : a.socket with
    | some e => exact ih _ _ _
    | none =>
      cases ha : attach id localAddr a with
      | ok u => rfl
      | error e =>
        rcases attach_error ha with ⟨o, rfl⟩ | rfl
        · simp only [List.erase_cons_head]
          exact ih _ _ _
        · rfl

/-- The first address decides whether `s` gets one. -/
theorem openLoop_start (localAddr : Option String) (addrs : List Address)
    (h : ∀ a, addrs.head? = some a → a.socket = none) :
    openLoop localAddr 0 addrs none [] none =
      (walk 0 (addrs.map (Address.outcome id localAddr)) none).result := by
  cases addrs with
  | nil => rfl
  | cons a rest =>
    have hs := h a rfl
    rw [List.map_cons, openLoop, Address.outcome, hs]
    cases ha : attach id localAddr a with
    | ok u => rfl
    | error e =>
      rcases attach_error ha with ⟨o, rfl⟩ | rfl
      · simp only [List.erase_cons_head]
        exact openLoop_eq _ _ _ _ _
      · rfl

/-! ## The walk over the addresses -/

/-- The steps for an address raise nothing else. -/
def Plain (o : Except Exc Unit) : Prop := ∀ e, o = .error e → (∃ x, e = .osError x) ∨ e = .cancelled

theorem outcomes_plain (api : Api) (c : Call) : ∀ o ∈ outcomes api c, Plain o := by
  intro o ho
  obtain ⟨a, -, rfl⟩ := List.mem_map.mp ho
  intro e he
  unfold Address.outcome at he
  split at he
  · cases he
    exact .inl ⟨_, rfl⟩
  · exact attach_error he

variable {os : List (Except Exc Unit)} {i : ℕ}

theorem walk_connected {k : ℕ} {last : Option OSError}
    (h : walk i os last = .connected k) :
    ¬Cancelled os ∧ ∃ j, k = i + j ∧ os.findIdx? (fun o => o.isOk) = some j := by
  induction os generalizing i last with
  | nil => cases h
  | cons o rest ih =>
    rcases o with (e | _ | _ | m | m) | ⟨⟩
    · obtain ⟨hc, j, rfl, hj⟩ := ih h
      refine ⟨?_, j + 1, by omega, ?_⟩
      · simpa [Cancelled, Except.isOk, Except.toBool] using hc
      · simpa [List.findIdx?_cons, Except.isOk, Except.toBool] using hj
    · cases h
    · cases h
    · cases h
    · cases h
    · cases h
      exact ⟨by simp [Cancelled, Except.isOk, Except.toBool], 0, rfl,
        by simp [List.findIdx?_cons, Except.isOk, Except.toBool]⟩

theorem walk_failed {last l : Option OSError}
    (h : walk i os last = .failed l) :
    ¬Cancelled os ∧ (∀ o ∈ os, o.isOk = false) ∧ l = (os.filterMap asOSError).getLast?.or last := by
  induction os generalizing i last with
  | nil =>
    cases h
    exact ⟨by rintro ⟨⟩, by rintro _ ⟨⟩, by simp⟩
  | cons o rest ih =>
    rcases o with (e | _ | _ | m | m) | ⟨⟩
    · obtain ⟨hc, hall, rfl⟩ := ih h
      refine ⟨?_, ?_, ?_⟩
      · simpa [Cancelled, Except.isOk, Except.toBool] using hc
      · rintro o (_ | ⟨_, ho⟩)
        · rfl
        · exact hall o ho
      · show _ = (e :: rest.filterMap asOSError).getLast?.or last
        rw [List.getLast?_cons]
        cases (rest.filterMap asOSError).getLast? <;> rfl
    · cases h
    · cases h
    · cases h
    · cases h
    · cases h

theorem walk_cancelled {k : ℕ} {last : Option OSError}
    (hp : ∀ o ∈ os, Plain o) (h : walk i os last = .cancelled k) : Cancelled os := by
  induction os generalizing i last with
  | nil => cases h
  | cons o rest ih =>
    rcases o with e | ⟨⟩
    · rcases hp _ List.mem_cons_self e rfl with ⟨x, rfl⟩ | rfl
      · have hc := ih (fun o ho => hp o (List.mem_cons_of_mem _ ho)) h
        exact List.mem_cons_of_mem _ hc
      · exact List.mem_cons_self
    · cases h

/-! ## When they keep it -/

/-- The whole call, where `open_connection` gets a socket for the first address. -/
theorem run_eq {api : Api} {c : Call}
    (h : api = .opens → ∀ a, c.addrs.head? = some a → a.socket = none) :
    api.run c = ((walk 0 (outcomes api c) none).result.1 >>= api.finish c,
      (walk 0 (outcomes api c) none).result.2) := by
  cases api with
  | opens =>
    simp only [Api.run, openConnection, openLoop_start c.localAddr c.addrs (h rfl)]
    rfl
  | creates =>
    simp only [Api.run, createConnection, createLoop_eq]
    change ((walk 0 (outcomes .creates c) none).result.1 >>= secure c >>= callFactory c,
      (walk 0 (outcomes .creates c) none).result.2) = _
    generalize walk 0 (outcomes .creates c) none = ending
    cases ending <;> rfl

/-- Without one it raises `UnboundLocalError`, which is none of the outcomes. -/
theorem run_unbound {c : Call} {a : Address} {e : OSError} (ha : c.addrs.head? = some a)
    (hs : a.socket = some e) : Api.opens.run c = (.error .unbound, []) := by
  obtain ⟨rest, hc⟩ : ∃ rest, c.addrs = a :: rest := by
    cases hl : c.addrs with
    | nil => simp [hl] at ha
    | cons b rest => exact ⟨rest, by simp_all⟩
  simp only [Api.run, openConnection, hc, openLoop, hs]
  rfl

theorem finish_ok {api : Api} {c : Call} {j : ℕ} (h : api.finish c i = .ok j) : j = i := by
  have hsecure {k : ℕ} (hk : secure c i = .ok k) : k = i := by
    unfold secure tlsWrapClient at hk
    split at hk
    · split at hk <;> cases hk
      rfl
    · cases hk
      rfl
  cases api with
  | opens => exact hsecure h
  | creates =>
    simp only [Api.finish] at h
    cases hk : secure c i with
    | error e =>
      rw [hk] at h
      cases h
    | ok k =>
      rw [hk] at h
      obtain rfl := hsecure hk
      simp only [callFactory, bind, Except.bind] at h
      split at h <;> cases h
      rfl

theorem finish_isOk (api : Api) (c : Call) (i : ℕ) : (api.finish c i).isOk = true ↔
    (c.ssl = true → c.handshake = .done) ∧ (api = .creates → c.factory = none) := by
  have hsecure : (secure c i).isOk = true ↔ (c.ssl = true → c.handshake = .done) := by
    unfold secure tlsWrapClient
    cases c.ssl <;> cases c.handshake <;> simp [Except.isOk, Except.toBool]
  cases api with
  | opens => simpa [Api.finish] using hsecure
  | creates =>
    simp only [Api.finish, ← hsecure]
    cases secure c i with
    | error e => simp [bind, Except.bind, Except.isOk, Except.toBool]
    | ok k =>
      cases hf : c.factory <;> simp [bind, Except.bind, callFactory, hf, Except.isOk, Except.toBool]

/-- Behind the loop no local name is unbound. -/
theorem finish_ne_unbound (api : Api) (c : Call) (i : ℕ) : api.finish c i ≠ .error .unbound := by
  have hsecure : secure c i ≠ .error .unbound := by
    unfold secure tlsWrapClient
    repeat' split
    all_goals simp
  cases api with
  | opens => exact hsecure
  | creates =>
    simp only [Api.finish]
    cases hk : secure c i with
    | error e =>
      rw [hk] at hsecure
      exact hsecure
    | ok k =>
      simp only [callFactory, bind, Except.bind]
      split <;> simp

theorem findIdx_none_of_all (h : ∀ o ∈ os, o.isOk = false) :
    os.findIdx? (fun o => o.isOk) = none := by
  simpa [List.findIdx?_eq_none_iff] using h

theorem findIdx_not_all
    (h : os.findIdx? (fun o => o.isOk) = some i) : ¬∀ o ∈ os, o.isOk = false := by
  intro hall
  rw [findIdx_none_of_all hall] at h
  cases h

theorem connects_iff (api : Api) (c : Call) : Connects api c ↔ Smooth api c := by
  by_cases hsocket : api = .opens → ∀ a, c.addrs.head? = some a → a.socket = none
  · have hrun := run_eq hsocket
    cases hwalk : walk 0 (outcomes api c) none with
    | connected k =>
      obtain ⟨hc, j, hj, hidx⟩ := walk_connected hwalk
      obtain rfl : k = j := by omega
      rw [hwalk] at hrun
      constructor
      · intro hd
        have hok : (api.finish c k).isOk = true := by
          have hclosed := hd.closed
          rw [hrun] at hclosed
          cases hfin : api.finish c k with
          | ok n => rfl
          | error e => simp [Ending.result, bind, Except.bind, hfin] at hclosed
        obtain ⟨hhandshake, hfactory⟩ := (finish_isOk api c k).mp hok
        exact ⟨hsocket, hc, fun _ => hhandshake, fun _ => hfactory⟩
      · intro hs
        refine ⟨fun _ i hi => ?_, fun _ hall => absurd hall (findIdx_not_all hidx),
          fun h => absurd h hc, ?_⟩
        · obtain rfl : k = i := Option.some.inj (hidx.symm.trans hi)
          rw [hrun]
          rfl
        · have hex : ∃ o ∈ outcomes api c, o.isOk := by
            by_contra hno
            exact findIdx_not_all hidx (by simpa using hno)
          have hok := (finish_isOk api c k).mpr ⟨hs.handshake hex, hs.factory hex⟩
          rw [hrun]
          cases hfin : api.finish c k with
          | ok n =>
            obtain rfl := finish_ok hfin
            simp [Ending.result, bind, Except.bind, hfin]
          | error e =>
            rw [hfin] at hok
            cases hok
    | failed l =>
      obtain ⟨hc, hall, hl⟩ := walk_failed hwalk
      rw [hwalk] at hrun
      have hidx := findIdx_none_of_all hall
      have hno : ¬∃ o ∈ outcomes api c, o.isOk := by
        rintro ⟨o, ho, hok⟩
        rw [hall o ho] at hok
        cases hok
      refine iff_of_true ⟨fun _ i hi => ?_, fun _ _ => ?_, fun h => absurd h hc, ?_⟩
        ⟨hsocket, hc, fun h => absurd h hno, fun h => absurd h hno⟩
      · rw [hidx] at hi
        cases hi
      · rw [hrun, hl, Option.or_none]
        rfl
      · rw [hrun]
        rfl
    | cancelled k =>
      have hc := walk_cancelled (outcomes_plain api c) hwalk
      rw [hwalk] at hrun
      refine iff_of_false (fun hd => ?_) fun hs => hs.waits hc
      have hclosed := hd.closed
      rw [hrun] at hclosed
      cases hclosed
  · refine iff_of_false (fun hd => ?_) fun hs => hsocket hs.socket
    push Not at hsocket
    obtain ⟨rfl, a, ha, hne⟩ := hsocket
    obtain ⟨e, he⟩ := Option.ne_none_iff_exists'.mp hne
    have hrun : (Api.opens.run c).1 = .error .unbound := by rw [run_unbound ha he]
    by_cases hc : Cancelled (outcomes .opens c)
    · have h := hd.cancelled hc
      rw [hrun] at h
      cases h
    · cases hidx : (outcomes .opens c).findIdx? (fun o => o.isOk) with
      | some i => exact finish_ne_unbound _ c i ((hd.first hc i hidx).symm.trans hrun)
      | none =>
        have h := hd.last hc (by simpa [List.findIdx?_eq_none_iff] using hidx)
        rw [hrun] at h
        cases h

/-- A host without IPv6, whose name has an IPv6 address first. -/
def noIPv6 : Call where
  addrs := [⟨some ⟨some 97, "Address family not supported by protocol"⟩, none, .atOnce⟩,
    ⟨none, none, .waits .done⟩]
  localAddr := none
  ssl := false
  handshake := .done
  factory := none

/-- A host with one address that answers. -/
def answering : Call := { noIPv6 with addrs := [⟨none, none, .waits .done⟩] }

/-- `open_connection` does not try the IPv4 address. Both calls leave the socket open where the wait
is cancelled and where the handshake fails, and `create_connection` where the factory raises. -/
theorem connect_leaks :
    (Api.opens.run noIPv6 = (.error .unbound, []) ∧ ¬Connects .opens noIPv6) ∧
    (∀ api : Api,
      (api.run { answering with addrs := [⟨none, none, .waits .cancelled⟩] } =
          (.error .cancelled, [0]) ∧
        ¬Connects api { answering with addrs := [⟨none, none, .waits .cancelled⟩] }) ∧
      api.run { answering with ssl := true, handshake := .failed "bad certificate" } =
          (.error (.tls "bad certificate"), [0]) ∧
        ¬Connects api { answering with ssl := true, handshake := .failed "bad certificate" }) ∧
    Api.creates.run { answering with factory := some "no protocol" } =
        (.error (.factory "no protocol"), [0]) ∧
      ¬Connects .creates { answering with factory := some "no protocol" } := by
  refine ⟨⟨rfl, fun h => ?_⟩, fun api => ⟨⟨?_, fun h => ?_⟩, ?_, fun h => ?_⟩, rfl, fun h => ?_⟩
  · have hfirst := h.first (by decide) 1 rfl
    cases hfirst
  · cases api <;> rfl
  · have hclosed := h.closed
    cases api <;> cases hclosed
  · cases api <;> rfl
  · have hclosed := h.closed
    cases api <;> cases hclosed
  · have hclosed := h.closed
    cases hclosed

end Stackweave.Aio.Connect
