import Mathlib.Data.Nat.Basic
import Mathlib.Logic.Function.Basic
import Stackweave.Transition

/-!
# The timeout of a patched socket (`monkey/_base.py`, `sockets.py`, `tls.py`)

The first cooperative operation on a socket makes it non-blocking, which
overwrites the timeout that CPython keeps in the socket object. The one the
program set goes to a table by descriptor number, and the patched methods keep
the table up to date. Socket objects come and go; a descriptor number is reused
as soon as it is free, and `wrap_socket` moves one to a new object.

Timeouts are whole nanoseconds, as CPython keeps them.
-/

namespace Stackweave.Monkey.Timeouts

open Transition Function

/-- `fd` is `none` when `fileno()` is -1. `timeout` is what `gettimeout()` returns.
`asked` is the deadline the program is to get: of the last timeout it set on this
socket or, before the wrap, on the plain one. `seen` says that a cooperative
operation has begun. -/
structure Sock where
  fd : Option ℕ
  timeout : Option ℕ
  asked : Option ℕ
  seen : Bool
  tls : Bool

inductive Desc
  | free
  | held (i : ℕ)
  /-- open, and no socket object's -/
  | loose
  deriving DecidableEq

/-- `table` is `_SOCK_TIMEOUTS`, by `fileno()`. -/
structure State where
  sock : ℕ → Option Sock
  desc : ℕ → Desc
  table : Option ℕ → Option (Option ℕ)

def State.init : State :=
  { sock := fun _ => none, desc := fun _ => .free, table := fun _ => none }

/-- No timeout and a timeout of zero are both no deadline. -/
def deadline : Option ℕ → Option ℕ
  | some 0 => none
  | t => t

/-- The deadline of an entry of the table; a missing one is none. -/
def recorded : Option (Option ℕ) → Option ℕ
  | some t => deadline t
  | none => none

/-- `_coop_timeout` -/
def coopTimeout (table : Option ℕ → Option (Option ℕ)) (k : Sock) : Option ℕ :=
  recorded (table k.fd)

def State.modify (s : State) (i : ℕ) (f : Sock → Sock) : State :=
  { s with sock := Function.update s.sock i ((s.sock i).map f) }

def State.setTable (s : State) (fd : Option ℕ) (e : Option (Option ℕ)) : State :=
  { s with table := Function.update s.table fd e }

def State.setDesc (s : State) (n : ℕ) (d : Desc) : State :=
  { s with desc := Function.update s.desc n d }

/-- `_make_nonblocking`. On a closed socket `setblocking` raises, after CPython has
changed the timeout. -/
def State.makeNonblocking (s : State) (i : ℕ) : State :=
  match s.sock i with
  | some k =>
    if k.timeout ≠ some 0 then
      (s.setTable k.fd (some k.timeout)).modify i fun k => { k with timeout := some 0 }
    else s
  | none => s

/-- `_patched_settimeout`. On a closed socket the real `settimeout` raises. -/
@[grind =]
def State.settimeout (s : State) (i : ℕ) (value : Option ℕ) : State :=
  match s.sock i with
  | some k =>
    let s := s.modify i fun k => { k with timeout := value }
    match k.fd with
    | some n =>
      s.setTable (some n) (match value with
        | none => some none
        | some 0 => none
        | some t => some (some t))
    | none => s
  | none => s

/-- `_patched_setblocking` -/
def State.setblocking (s : State) (i : ℕ) (flag : Bool) : State :=
  match s.sock i with
  | some k =>
    let s := s.modify i fun k => { k with timeout := if flag then none else some 0 }
    match k.fd with
    | some n => s.setTable (some n) (if flag then some none else none)
    | none => s
  | none => s

/-- The program set the timeout, or is to keep the one it had set. -/
def State.ask (s : State) (i : ℕ) (d : Option ℕ) : State :=
  s.modify i fun k => { k with asked := d }

def Sock.fresh (n : ℕ) (timeout : Option ℕ) : Sock :=
  { fd := some n, timeout := timeout, asked := none, seen := false, tls := false }

/-- A socket object `i` on the descriptor `n`; `defaulttimeout` is not set. -/
def State.make (s : State) (i n : ℕ) (timeout : Option ℕ) : State :=
  { s.setDesc n (.held i) with sock := Function.update s.sock i (some (.fresh n timeout)) }

/-- A descriptor and its entry leave the socket object. -/
def State.leave (s : State) (i : ℕ) (d : Desc) : State :=
  match (s.sock i).bind Sock.fd with
  | some n => ((s.setTable (some n) none).setDesc n d).modify i fun k => { k with fd := none }
  | none => s

/-- `_patched_detach` and `_patched_close` -/
def State.detach (s : State) (i : ℕ) : State := s.leave i .loose

def State.close (s : State) (i : ℕ) : State := s.leave i .free

/-- The finalizer of the C object closes the descriptor and tells nobody. -/
def State.dealloc (s : State) (i : ℕ) : State :=
  match (s.sock i).bind Sock.fd with
  | some n => { s.setDesc n .free with sock := Function.update s.sock i none }
  | none => { s with sock := Function.update s.sock i none }

/-- CPython's `wrap_socket` -/
def State.wrap (s : State) (i j : ℕ) : Option State :=
  match s.sock i, s.sock j with
  | some k, none =>
    match k.fd with
    | some n =>
      let s := ((s.detach i).make j n none).settimeout j k.timeout
      some ((s.ask j k.asked).modify j fun k => { k with tls := true })
    | none => none
  | _, _ => none

/-- CPython's `socket.accept` on the listener `i`, with the new socket `j`. -/
def State.accept (s : State) (i j n : ℕ) : Option State :=
  match s.sock i, s.sock j with
  | some k, none =>
    if k.fd ≠ none ∧ s.desc n = .free then
      let t := s.make j n none
      some (if deadline k.timeout = none then t else t.setblocking j true)
    else none
  | _, _ => none

/-- A cooperative operation starts; from here on it may ask for its deadline. -/
def State.begin (s : State) (i : ℕ) : State :=
  (s.makeNonblocking i).modify i fun k => { k with seen := true }

inductive Act
  /-- `nonblock`: made with `SOCK_NONBLOCK` -/
  | create (i n : ℕ) (nonblock : Bool)
  /-- `socket.socket(fileno=n)` -/
  | adopt (i n : ℕ)
  | settimeout (i : ℕ) (value : Option ℕ)
  | setblocking (i : ℕ) (flag : Bool)
  | op (i : ℕ)
  /-- `do_handshake` on a connected TLS socket -/
  | handshake (i : ℕ)
  /-- `fiber`: called in a fiber, otherwise the real one -/
  | accept (i j n : ℕ) (fiber : Bool)
  | wrap (i j : ℕ)
  | detach (i : ℕ)
  | close (i : ℕ)
  | dealloc (i : ℕ)
  | openOther (n : ℕ)
  | closeOther (n : ℕ)

def State.isTls (s : State) (i : ℕ) : Bool :=
  match s.sock i with
  | some k => k.tls && k.fd.isSome
  | none => false

/-- CPython's `do_handshake` ends with `settimeout` of the `gettimeout()` it began
with. -/
def State.handshake (s : State) (i : ℕ) : State :=
  let t := s.begin i
  t.settimeout i (((t.sock i).map Sock.timeout).getD none)

def step (s : State) : Act → Option State
  | .create i n nonblock =>
    if s.sock i = none ∧ s.desc n = .free then
      some (s.make i n (if nonblock then some 0 else none))
    else none
  | .adopt i n =>
    if s.sock i = none ∧ s.desc n = .loose then some (s.make i n none) else none
  | .settimeout i value => some ((s.settimeout i value).ask i (deadline value))
  | .setblocking i flag => some ((s.setblocking i flag).ask i none)
  | .op i => some (s.begin i)
  | .handshake i => if s.isTls i then some (s.handshake i) else none
  | .accept i j n fiber => (if fiber then s.begin i else s).accept i j n
  | .wrap i j => s.wrap i j
  | .detach i => some (s.detach i)
  | .close i => some (s.close i)
  | .dealloc i => some (s.dealloc i)
  | .openOther n => if s.desc n = .free then some (s.setDesc n .loose) else none
  | .closeOther n => if s.desc n = .loose then some (s.setDesc n .free) else none

def system : System State Act where
  init s := s = State.init
  step := step

/-- The condition on a step. A socket made non-blocking does not take over a number
for which a deadline is left in the table, and `wrap_socket` and `do_handshake` do
not find a deadline that only the table still has. -/
def Keeps (s : State) : Act → Prop
  | .create _ n nonblock => nonblock = true → recorded (s.table (some n)) = none
  | .handshake i => ∀ k, s.sock i = some k → k.asked = none
  | .wrap i _ => ∀ k, s.sock i = some k → k.timeout = some 0 → k.asked = none
  | _ => True

instance (s : State) (a : Act) : Decidable (Keeps s a) :=
  match a with
  | .create _ n nonblock =>
    inferInstanceAs (Decidable (nonblock = true → recorded (s.table (some n)) = none))
  | .handshake i =>
    match h : s.sock i with
    | some k => decidable_of_iff (k.asked = none) (by simp [Keeps, h])
    | none => isTrue (by simp [Keeps, h])
  | .wrap i _ =>
    match h : s.sock i with
    | some k =>
      decidable_of_iff (k.timeout = some 0 → k.asked = none) (by simp [Keeps, h])
    | none => isTrue (by simp [Keeps, h])
  | .adopt _ _ | .settimeout _ _ | .setblocking _ _ | .op _ | .accept _ _ _ _ | .detach _
  | .close _ | .dealloc _ | .openOther _ | .closeOther _ => isTrue trivial

/-- The runs all of whose steps keep the condition. -/
def kept : System State Act := system.restrict Keeps

/-- The deadline of an operation on a socket is the one the program asked for. -/
def InForce (s : State) : Prop :=
  ∀ i k, s.sock i = some k → k.fd ≠ none → (k.seen || k.tls) = true →
    coopTimeout s.table k = k.asked

/-! ## The socket object and the table -/

/-- What the socket `i` on the number `n` may rely on: as long as its own timeout is not
zero it is the one the program set, and otherwise the table has that one. -/
structure Good (s : State) (i : ℕ) (k : Sock) (n : ℕ) : Prop where
  held : s.desc n = .held i
  own : k.timeout ≠ some 0 → deadline k.timeout = k.asked
  entry : (k.timeout = some 0 ∨ (k.seen || k.tls) = true) → recorded (s.table (some n)) = k.asked

def Inv (s : State) : Prop := ∀ i k n, s.sock i = some k → k.fd = some n → Good s i k n

theorem init_inv : Inv State.init := by
  intro i k n hk
  cases hk

variable {s t : State} {i n : ℕ}

/-- A step of the socket `i` leaves the descriptors of the others and their entries. -/
theorem Inv.one (h : Inv s) (hsock : ∀ j, j ≠ i → t.sock j = s.sock j)
    (hrest : ∀ j n, j ≠ i → s.desc n = .held j →
      t.desc n = .held j ∧ t.table (some n) = s.table (some n))
    (hi : ∀ k n, t.sock i = some k → k.fd = some n → Good t i k n) : Inv t := by
  intro j k n hk hn
  by_cases hj : j = i
  · subst hj
    exact hi k n hk hn
  · rw [hsock j hj] at hk
    have hg := h j k n hk hn
    obtain ⟨hd, ht⟩ := hrest j n hj hg.held
    exact ⟨hd, hg.own, by rw [ht]; exact hg.entry⟩

/-- Only the socket object changes. -/
theorem Inv.modify (h : Inv s) {f : Sock → Sock}
    (hf : ∀ k n, s.sock i = some k → k.fd = some n → Good s i (f k) n)
    (hfd : ∀ k, (f k).fd = k.fd) : Inv (s.modify i f) := by
  refine h.one (fun j hj => update_of_ne hj _ _) (fun _ _ _ hd => ⟨hd, rfl⟩) ?_
  intro k n hk hn
  simp only [State.modify, update_self, Option.map_eq_some_iff] at hk
  obtain ⟨k, hk, rfl⟩ := hk
  rw [hfd k] at hn
  have hg := hf k n hk hn
  exact ⟨hg.held, hg.own, hg.entry⟩

theorem recorded_value (v : Option ℕ) :
    recorded (match v with
      | none => some none
      | some 0 => none
      | some t => some (some t)) = deadline v := by
  match v with
  | none => rfl
  | some 0 => rfl
  | some (t + 1) => rfl

/-- What `settimeout` does to a socket that has a descriptor. -/
theorem settimeout_open {k : Sock} (v : Option ℕ) (hk : s.sock i = some k)
    (hn : k.fd = some n) :
    (s.settimeout i v).sock i = some { k with timeout := v } ∧
      (s.settimeout i v).desc = s.desc ∧
      recorded ((s.settimeout i v).table (some n)) = deadline v ∧
      ∀ m, m ≠ n → (s.settimeout i v).table (some m) = s.table (some m) := by
  simp only [State.settimeout, hk, hn, State.modify, State.setTable]
  refine ⟨?_, trivial, ?_, fun m hm => ?_⟩
  · simp [hn]
  · rw [update_self]
    exact recorded_value v
  · exact update_of_ne (by simpa using hm) _ _

/-- And to one that has none, or to no socket. -/
theorem settimeout_closed (v : Option ℕ)
    (hn : ∀ k, s.sock i = some k → k.fd = none) :
    (s.settimeout i v).desc = s.desc ∧ (s.settimeout i v).table = s.table ∧
      ∀ k, (s.settimeout i v).sock i = some k → k.fd = none := by
  cases hk : s.sock i with
  | none => simp [State.settimeout, hk]
  | some k => simp [State.settimeout, hk, hn k hk, State.modify]

theorem settimeout_other {j : ℕ} (v : Option ℕ) (hj : j ≠ i) :
    (s.settimeout i v).sock j = s.sock j := by
  unfold State.settimeout
  cases s.sock i with
  | none => rfl
  | some k =>
    cases hn : k.fd with
    | none => simp [State.modify, hn, hj]
    | some n => simp [State.modify, State.setTable, hn, hj]

/-- `settimeout` on a socket that is then to have the deadline of the value. -/
theorem settimeout_inv (h : Inv s) {v : Option ℕ} {f : Sock → Sock}
    (hfd : ∀ k, (f k).fd = k.fd) (ht : ∀ k, (f k).timeout = k.timeout)
    (ha : ∀ k, s.sock i = some k → (f { k with timeout := v }).asked = deadline v) :
    Inv ((s.settimeout i v).modify i f) := by
  have hsock : ∀ j, j ≠ i → ((s.settimeout i v).modify i f).sock j = s.sock j := fun j hj =>
    (update_of_ne hj _ _).trans (settimeout_other v hj)
  by_cases hn : ∀ k, s.sock i = some k → k.fd = none
  · obtain ⟨hd, htab, hself⟩ := settimeout_closed v hn
    refine h.one hsock (fun j m _ hm => ⟨?_, ?_⟩) fun k m hk hm => ?_
    · exact (congrFun hd m).trans hm
    · exact congrFun htab (some m)
    · simp only [State.modify, update_self, Option.map_eq_some_iff] at hk
      obtain ⟨k, hk, rfl⟩ := hk
      rw [hfd k, hself k hk] at hm
      cases hm
  · simp only [not_forall] at hn
    obtain ⟨k, hk, hn⟩ := hn
    obtain ⟨n, hn⟩ := Option.ne_none_iff_exists'.mp hn
    have hg := h i k n hk hn
    obtain ⟨hself, hd, hrec, hrest⟩ := settimeout_open v hk hn
    refine h.one hsock (fun j m hj hm => ⟨?_, ?_⟩) fun k' m hk' hm => ?_
    · exact (congrFun hd m).trans hm
    · exact hrest m fun he => hj (Desc.held.inj (hm.symm.trans (he ▸ hg.held)))
    · simp only [State.modify, update_self, hself, Option.map_some,
        Option.some.injEq] at hk'
      subst hk'
      have hmn : m = n := Option.some.inj (hm.symm.trans ((hfd _).trans hn))
      subst hmn
      refine ⟨(congrFun hd m).trans hg.held, fun _ => ?_, fun _ => ?_⟩
      · rw [ha k hk, ht]
      · exact hrec.trans (ha k hk).symm

theorem modify_id (s : State) (i : ℕ) : s.modify i id = s := by
  simp [State.modify]

theorem modify_modify (s : State) (i : ℕ) (f g : Sock → Sock) :
    (s.modify i f).modify i g = s.modify i (g ∘ f) := by
  simp [State.modify]

/-- `setblocking` is `settimeout(None)` or `settimeout(0)`, for the table too. -/
theorem setblocking_eq (s : State) (i : ℕ) (flag : Bool) :
    s.setblocking i flag = s.settimeout i (if flag then none else some 0) := by
  unfold State.setblocking State.settimeout
  cases s.sock i with
  | none => rfl
  | some k =>
    cases hn : k.fd with
    | none => simp [hn]
    | some n => cases flag <;> simp [hn]

theorem makeNonblocking_inv (h : Inv s) (i : ℕ) : Inv (s.makeNonblocking i) := by
  unfold State.makeNonblocking
  cases hk : s.sock i with
  | none => exact h
  | some k =>
    dsimp only
    split
    case isFalse => exact h
    case isTrue ht =>
      refine h.one (i := i) (fun j hj => ?_) (fun j m hj hd => ?_) fun k' n hk' hn' => ?_
      · simp [State.modify, State.setTable, hj]
      · have hm : some m ≠ k.fd := fun he => by
          have hg := h i k m hk he.symm
          exact hj (Desc.held.inj (hd.symm.trans hg.held))
        simpa [State.modify, State.setTable, hm] using hd
      · simp only [State.modify, State.setTable, hk, update_self, Option.map_some,
          Option.some.injEq] at hk'
        subst hk'
        have hg := h i k n hk hn'
        refine ⟨hg.held, fun hz => absurd rfl hz, fun _ => ?_⟩
        have hn : k.fd = some n := hn'
        simpa [State.modify, State.setTable, hn, recorded] using hg.own ht

/-- What `_make_nonblocking` does to the socket object. -/
theorem makeNonblocking_self {k : Sock}
    (hk : (s.makeNonblocking i).sock i = some k) :
    k.timeout = some 0 ∧ ∃ k', s.sock i = some k' ∧ k.asked = k'.asked := by
  unfold State.makeNonblocking at hk
  cases hi : s.sock i with
  | none => simp [hi] at hk
  | some k' =>
    simp only [hi] at hk
    split at hk
    case isTrue =>
      simp only [State.modify, State.setTable, hi, update_self, Option.map_some,
        Option.some.injEq] at hk
      rw [← hk]
      exact ⟨rfl, k', rfl, rfl⟩
    case isFalse hz =>
      rw [hi] at hk
      cases hk
      exact ⟨by simpa using hz, k, rfl, rfl⟩

theorem begin_inv (h : Inv s) (i : ℕ) : Inv (s.begin i) := by
  refine (makeNonblocking_inv h i).modify (fun k n hk hn => ?_) fun _ => rfl
  have hg := makeNonblocking_inv h i i k n hk hn
  have hz := (makeNonblocking_self hk).1
  exact ⟨hg.held, hg.own, fun _ => hg.entry (.inl hz)⟩

/-- A new object on a number that no socket object has. -/
theorem make_inv (h : Inv s) {v : Option ℕ}
    (hd : ∀ j, s.desc n ≠ .held j) (hv : deadline v = none)
    (hz : v = some 0 → recorded (s.table (some n)) = none) : Inv (s.make i n v) := by
  refine h.one (i := i) (fun j hj => update_of_ne hj _ _) (fun j m hj hm => ?_) ?_
  · have hmn : m ≠ n := fun he => hd j (he ▸ hm)
    simpa [State.make, State.setDesc, hmn] using hm
  · intro k m hk hm
    simp only [State.make, State.setDesc, update_self, Option.some.injEq] at hk
    subst hk
    have hmn : n = m := Option.some.inj hm
    subst hmn
    refine ⟨?_, fun _ => hv, fun hs => hz ?_⟩
    · simp [State.make, State.setDesc]
    · simpa [Sock.fresh] using hs

theorem leave_inv (h : Inv s) (i : ℕ) (d : Desc) : Inv (s.leave i d) := by
  unfold State.leave
  cases hk : s.sock i with
  | none => exact h
  | some k =>
    cases hn : k.fd with
    | none => simpa [hn] using h
    | some n =>
      have hg := h i k n hk hn
      simp only [Option.bind_some, hn]
      refine h.one (i := i) (fun j hj => ?_) (fun j m hj hm => ?_) fun k' m hk' hm => ?_
      · simp [State.modify, State.setTable, State.setDesc, hj]
      · have hmn : m ≠ n := fun he => hj (Desc.held.inj (hm.symm.trans (he ▸ hg.held)))
        simpa [State.modify, State.setTable, State.setDesc, hmn] using hm
      · simp only [State.modify, State.setTable, State.setDesc, hk, update_self,
          Option.map_some, Option.some.injEq] at hk'
        subst hk'
        cases hm

theorem dealloc_inv (h : Inv s) (i : ℕ) : Inv (s.dealloc i) := by
  unfold State.dealloc
  cases hk : s.sock i with
  | none =>
    refine h.one (i := i) (fun j hj => ?_) (fun _ _ _ hm => ⟨hm, rfl⟩) fun k' m hk' => ?_
    · simp [hj]
    · simp at hk'
  | some k =>
    cases hn : k.fd with
    | none =>
      simp only [Option.bind_some, hn]
      refine h.one (i := i) (fun j hj => ?_) (fun _ _ _ hm => ⟨hm, rfl⟩) fun k' m hk' => ?_
      · simp [hj]
      · simp at hk'
    | some n =>
      have hg := h i k n hk hn
      simp only [Option.bind_some, hn]
      refine h.one (i := i) (fun j hj => ?_) (fun j m hj hm => ?_) fun k' m hk' => ?_
      · simp [hj]
      · have hmn : m ≠ n := fun he => hj (Desc.held.inj (hm.symm.trans (he ▸ hg.held)))
        simpa [State.setDesc, hmn] using hm
      · simp at hk'

/-- Other parts of the process open and close numbers that no socket object has. -/
theorem elsewhere_inv (h : Inv s) {d : Desc}
    (hd : ∀ j, s.desc n ≠ .held j) : Inv (s.setDesc n d) := by
  intro i k m hk hm
  have hg := h i k m hk hm
  have hmn : m ≠ n := fun he => hd i (he ▸ hg.held)
  exact ⟨by simpa [State.setDesc, hmn] using hg.held, hg.own, hg.entry⟩

theorem accept_inv (h : Inv s) {j : ℕ} (hs : s.accept i j n = some t) :
    Inv t := by
  unfold State.accept at hs
  split at hs
  case h_2 => cases hs
  case h_1 k hk hj =>
    obtain ⟨⟨-, hfree⟩, hs⟩ := Option.ite_none_right_eq_some.mp hs
    have hmake : Inv (s.make j n none) :=
      make_inv h (fun j' he => by rw [hfree] at he; cases he) rfl (fun he => by cases he)
    cases hs
    split
    case isTrue => exact hmake
    case isFalse =>
      rw [setblocking_eq, ← modify_id ((s.make j n none).settimeout j _) j]
      refine settimeout_inv hmake (fun _ => rfl) (fun _ => rfl) fun k hk => ?_
      simp only [State.make, update_self, Option.some.injEq] at hk
      rw [← hk]
      rfl

theorem wrap_inv (h : Inv s) {j : ℕ}
    (hok : ∀ k, s.sock i = some k → k.timeout = some 0 → k.asked = none)
    (hs : s.wrap i j = some t) : Inv t := by
  unfold State.wrap at hs
  split at hs
  case h_2 => cases hs
  case h_1 k hk hj =>
    split at hs
    case h_2 => cases hs
    case h_1 n hn =>
      cases hs
      have hg := h i k n hk hn
      have hdetach : Inv (s.detach i) := leave_inv h i .loose
      have hloose : (s.detach i).desc n = .loose := by
        simp [State.detach, State.leave, hk, hn, State.modify, State.setTable, State.setDesc]
      have hmake : Inv ((s.detach i).make j n none) :=
        make_inv hdetach (fun j' he => by rw [hloose] at he; cases he) rfl
          (fun he => by cases he)
      -- the value read is the one the program set, or none was to be kept
      have hv : deadline k.timeout = k.asked := by
        by_cases hz : k.timeout = some 0
        · rw [hz, hok k hk hz]
          rfl
        · exact hg.own hz
      rw [State.ask, modify_modify]
      exact settimeout_inv hmake (fun _ => rfl) (fun _ => rfl) fun _ _ => hv.symm

theorem handshake_inv (h : Inv s)
    (hok : ∀ k, s.sock i = some k → k.asked = none) : Inv (s.handshake i) := by
  rw [State.handshake, ← modify_id ((s.begin i).settimeout i _) i]
  refine settimeout_inv (begin_inv h i) (fun _ => rfl) (fun _ => rfl) fun k hk => ?_
  rw [hk]
  simp only [State.begin, State.modify, update_self, Option.map_eq_some_iff] at hk
  obtain ⟨k₁, hk₁, rfl⟩ := hk
  obtain ⟨hz, k₀, hk₀, hasked⟩ := makeNonblocking_self hk₁
  simp [hz, hasked, hok k₀ hk₀, deadline]

theorem step_inv {a : Act} (h : Inv s) (hok : Keeps s a)
    (hs : step s a = some t) : Inv t := by
  cases a with
  | create i n nonblock =>
    obtain ⟨⟨-, hfree⟩, hs⟩ := Option.ite_none_right_eq_some.mp hs
    cases hs
    refine make_inv h (fun j he => by rw [hfree] at he; cases he) ?_ fun hz => ?_
    · cases nonblock <;> rfl
    · cases nonblock with
      | false => cases hz
      | true => exact hok rfl
  | adopt i n =>
    obtain ⟨⟨-, hloose⟩, hs⟩ := Option.ite_none_right_eq_some.mp hs
    cases hs
    exact make_inv h (fun j he => by rw [hloose] at he; cases he) rfl fun he => by cases he
  | settimeout i value =>
    cases hs
    exact settimeout_inv h (fun _ => rfl) (fun _ => rfl) fun _ _ => rfl
  | setblocking i flag =>
    cases hs
    rw [setblocking_eq]
    refine settimeout_inv h (fun _ => rfl) (fun _ => rfl) fun _ _ => ?_
    cases flag <;> rfl
  | op i =>
    cases hs
    exact begin_inv h i
  | handshake i =>
    obtain ⟨-, hs⟩ := Option.ite_none_right_eq_some.mp hs
    cases hs
    exact handshake_inv h hok
  | accept i j n fiber =>
    cases fiber with
    | false => exact accept_inv h hs
    | true => exact accept_inv (begin_inv h i) hs
  | wrap i j => exact wrap_inv h hok hs
  | detach i =>
    cases hs
    exact leave_inv h i .loose
  | close i =>
    cases hs
    exact leave_inv h i .free
  | dealloc i =>
    cases hs
    exact dealloc_inv h i
  | openOther n =>
    obtain ⟨hfree, hs⟩ := Option.ite_none_right_eq_some.mp hs
    cases hs
    exact elsewhere_inv h fun j he => by rw [hfree] at he; cases he
  | closeOther n =>
    obtain ⟨hloose, hs⟩ := Option.ite_none_right_eq_some.mp hs
    cases hs
    exact elsewhere_inv h fun j he => by rw [hloose] at he; cases he

theorem reachable_inv (h : Reachable kept s) : Inv s := by
  induction h with
  | start hs =>
    cases hs
    exact init_inv
  | next _ hs ih =>
    obtain ⟨hok, hs⟩ := System.restrict_step.mp hs
    exact step_inv ih hok hs

/-- In every run that keeps the condition the deadline of an operation is the one the
program asked for on its socket. -/
theorem coopTimeout_asked {s : State} (h : Reachable kept s) : InForce s := by
  intro i k hk hfd hop
  obtain ⟨n, hn⟩ := Option.ne_none_iff_exists'.mp hfd
  rw [coopTimeout, hn]
  exact (reachable_inv h i k n hk hn).entry (.inr hop)

/-- A listener with a timeout, a connection that is wrapped before its first operation, and
one that is dropped without a close and whose number the next socket gets. -/
def served : List Act :=
  [.create 0 3 false, .settimeout 0 (some 2000000000), .op 0, .accept 0 1 4 true,
    .settimeout 1 (some 5000000000), .wrap 1 2, .op 2, .accept 0 3 5 true,
    .settimeout 3 (some 1000000000), .op 3, .dealloc 3, .create 4 5 false, .op 4,
    .settimeout 0 (some 0), .op 0]

theorem coopTimeout_asked_served :
    ∃ s, Reachable kept s ∧
      (∃ k, s.sock 2 = some k ∧ k.fd = some 4 ∧ coopTimeout s.table k = some 5000000000) ∧
      (∃ k, s.sock 4 = some k ∧ k.fd = some 5 ∧ coopTimeout s.table k = none) ∧ InForce s := by
  have hrun : (kept.run State.init served).map (fun s =>
      ((s.sock 2).map fun k => (k.fd, coopTimeout s.table k),
        (s.sock 4).map fun k => (k.fd, coopTimeout s.table k))) =
      some (some (some 4, some 5000000000), some (some 5, none)) := by
    decide +kernel
  obtain ⟨s, hs, hobs⟩ := Option.map_eq_some_iff.mp hrun
  simp only [Prod.mk.injEq, Option.map_eq_some_iff] at hobs
  have hreach : Reachable kept s := reachable_of_run kept served rfl hs
  exact ⟨s, hreach, hobs.1, hobs.2, coopTimeout_asked hreach⟩

/-- A client that connects with a timeout and then wraps the socket. -/
def wrapped : List Act :=
  [.create 0 3 false, .settimeout 0 (some 5000000000), .op 0, .wrap 0 1, .op 1]

/-- A socket with a timeout is dropped without a close, and its number goes to one that
is made non-blocking. -/
def dropped : List Act :=
  [.create 0 3 false, .settimeout 0 (some 5000000000), .dealloc 0, .create 1 3 true, .op 1]

theorem wrapped_loses_dropped_leaves :
    (∃ s k, Reachable system s ∧ s.sock 1 = some k ∧ k.asked = some 5000000000 ∧
      coopTimeout s.table k = none ∧ ¬ InForce s) ∧
    ∃ s k, Reachable system s ∧ s.sock 1 = some k ∧ k.asked = none ∧
      coopTimeout s.table k = some 5000000000 ∧ ¬ InForce s := by
  have hdiffer : ∀ {s : State} {k : Sock} {d d' : Option ℕ}, s.sock 1 = some k → k.fd = some 3 →
      k.seen = true → coopTimeout s.table k = d → k.asked = d' → d ≠ d' → ¬ InForce s := by
    intro s k d d' hk hfd hseen hd hd' hne hin
    have := hin 1 k hk (by simp [hfd]) (by simp [hseen])
    rw [hd, hd'] at this
    exact hne this
  constructor
  · have hrun : (system.run State.init wrapped).map (fun s =>
        (s.sock 1).map fun k => (k.fd, k.seen, k.asked, coopTimeout s.table k)) =
        some (some (some 3, true, some 5000000000, none)) := by
      decide +kernel
    obtain ⟨s, hs, hobs⟩ := Option.map_eq_some_iff.mp hrun
    obtain ⟨k, hk, hobs⟩ := Option.map_eq_some_iff.mp hobs
    simp only [Prod.mk.injEq] at hobs
    obtain ⟨hfd, hseen, hasked, hcoop⟩ := hobs
    exact ⟨s, k, reachable_of_run system wrapped rfl hs, hk, hasked, hcoop,
      hdiffer hk hfd hseen hcoop hasked (by decide)⟩
  · have hrun : (system.run State.init dropped).map (fun s =>
        (s.sock 1).map fun k => (k.fd, k.seen, k.asked, coopTimeout s.table k)) =
        some (some (some 3, true, none, some 5000000000)) := by
      decide +kernel
    obtain ⟨s, hs, hobs⟩ := Option.map_eq_some_iff.mp hrun
    obtain ⟨k, hk, hobs⟩ := Option.map_eq_some_iff.mp hobs
    simp only [Prod.mk.injEq] at hobs
    obtain ⟨hfd, hseen, hasked, hcoop⟩ := hobs
    exact ⟨s, k, reachable_of_run system dropped rfl hs, hk, hasked, hcoop,
      hdiffer hk hfd hseen hcoop hasked (by decide)⟩

end Stackweave.Monkey.Timeouts
