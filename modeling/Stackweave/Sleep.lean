import Mathlib.Data.List.Nodup
import Mathlib.Tactic.Common
import Stackweave.Transition

/-!
# Sleep tickets (`runloom_sched_sleep_until_ex`, `runloom_sched_sleep_signal_wake`)

One g and its successive sleeps on any hubs, the timer pops and purges of the
hubs, and the main thread that hands a signal's exception to the sleeper. Every
access to `sleep_ticket` and to a `signal_exc` slot is one step, and so is every
section under the sigwaiter lock that the sleeper runs.

A hub may pop or purge at any time, also while the sleeper still runs on it, and
a pop may take any entry: the deadlines are arbitrary. The entries of other g's
are left out, and other recipients of signals are seen only where they reserve a
hub's slot and clear their own reservation. Tickets are natural numbers.
-/

namespace Stackweave.Sleep

open Transition

/-- The part of `runloom_sleep_entry_t` that the claims read. -/
structure Entry where
  ticket : ℕ
  io : Bool
  deriving DecidableEq

/-- The loop top of a hub: the timer pop, and the purge. A purge carries the
entries still to check, those it keeps and the abandoned ones. -/
inductive HubPc
  | idle
  | popped (e : Entry)
  | won (e : Entry)
  | done (e : Entry)
  | purging (todo kept dead : List Entry)
  | dropping (dead : List Entry)
  deriving DecidableEq

structure Hub where
  heap : List Entry
  purge : Bool
  pc : HubPc

/-- `signal_exc` of a hub's sched; `mine` is history: reserved for this g. -/
structure Cell where
  mine : Bool
  exc : ℕ

/-- `runloom_sleep_sigwaiter_t` -/
structure Node where
  hub : ℕ
  ticket : ℕ
  signaled : Bool

/-- Where `runloom_sched_sleep_until_ex` stands, with the hub it sleeps on. -/
inductive Pc
  | idle
  | loaded (h : ℕ) (io : Bool) (t : ℕ)
  | stored (h : ℕ) (io : Bool) (t : ℕ)
  | counted (h : ℕ) (io : Bool) (t : ℕ)
  /-- `runloom_sleep_push` failed -/
  | undo (t : ℕ)
  | pushed (h : ℕ) (io : Bool) (t : ℕ)
  | linked (h t : ℕ)
  | parked (h : ℕ) (io : Bool) (t : ℕ)
  | resumed (h : ℕ) (io : Bool) (t : ℕ)
  | unlinked (h t : ℕ) (signaled : Bool)
  | picked (h t : ℕ) (exc : Option ℕ)

/-- Where `runloom_sched_sleep_signal_wake` stands; the sigwaiter lock is held
from `locked` to `claimed`. -/
inductive Main
  | out
  | locked (exc : ℕ)
  | reserved (exc h t : ℕ)
  | marked (h t : ℕ)
  | claimed (h t : ℕ) (ok : Bool)
  | post (h t : ℕ)
  | wake (h t : ℕ)

/-- `queued` are the run-queue entries of the g, each with the ticket of the
claim it came from. History: the claims and references by ticket, the ends (the
sleep and the claim whose wake ended it), and the exceptions marked and taken. -/
structure State where
  ticket : ℕ
  pc : Pc
  node : Option Node
  hubs : ℕ → Hub
  slot : ℕ → Option Cell
  main : Main
  queued : List ℕ
  byPop : ℕ → ℕ
  bySignal : ℕ → ℕ
  taken : ℕ → ℕ
  drops : ℕ → ℕ
  ends : List (ℕ × ℕ)
  sent : List (ℕ × ℕ)
  got : List (ℕ × ℕ)

def init : State :=
  { ticket := 0, pc := .idle, node := none, hubs := fun _ => ⟨[], false, .idle⟩
    slot := fun _ => none, main := .out, queued := []
    byPop := fun _ => 0, bySignal := fun _ => 0, taken := fun _ => 0, drops := fun _ => 0
    ends := [], sent := [], got := [] }

inductive Action
  | start (h : ℕ) (io : Bool)
  | sleeper
  /-- the heap could not grow -/
  | nomem
  | resume (x : ℕ)
  | pop (h : ℕ) (e : Entry)
  | purge (h : ℕ)
  | hub (h : ℕ)
  | signal (exc : ℕ)
  | main
  /-- another recipient's reservation of a slot, and its pickup -/
  | reserve (h exc : ℕ)
  | clear (h : ℕ)

def bump (f : ℕ → ℕ) (t : ℕ) : ℕ → ℕ := fun u => if u = t then f u + 1 else f u

def State.setHub (s : State) (h : ℕ) (w : Hub) : State :=
  { s with hubs := fun j => if j = h then w else s.hubs j }

def State.setSlot (s : State) (h : ℕ) (c : Option Cell) : State :=
  { s with slot := fun j => if j = h then c else s.slot j }

/-- The main thread holds the sigwaiter lock. -/
def Main.holds : Main → Bool
  | .locked _ | .reserved _ _ _ | .marked _ _ | .claimed _ _ _ => true
  | _ => false

/-- The next step of the sleeper. -/
def sleeperStep (s : State) : Option State :=
  match s.pc with
  | .loaded h io t => some { s with ticket := t, pc := .stored h io t }
  | .stored h io t => some { s with taken := bump s.taken t, pc := .counted h io t }
  | .counted h io t =>
    some { s.setHub h { s.hubs h with heap := ⟨t, io⟩ :: (s.hubs h).heap } with
      pc := .pushed h io t }
  | .undo t => some { s with drops := bump s.drops t, pc := .idle }
  | .pushed h true t =>
    if s.main.holds then none
    else some { s with node := some ⟨h, t, false⟩, pc := .linked h t }
  | .pushed h false t => some { s with pc := .parked h false t }
  | .linked h t => some { s with pc := .parked h true t }
  | .resumed h true t =>
    if s.main.holds then none
    else some { s with
      node := none, pc := .unlinked h t ((s.node.map Node.signaled).getD false) }
  | .resumed _ false _ => some { s with pc := .idle }
  | .unlinked h t true => some { s with pc := .picked h t ((s.slot h).map Cell.exc) }
  | .unlinked _ _ false => some { s with pc := .idle }
  | .picked h t x =>
    some { s.setSlot h none with got := s.got ++ (x.map fun e => (t, e)).toList, pc := .idle }
  | _ => none

/-- The next step of a hub's loop top. -/
def hubStep (s : State) (h : ℕ) : Option State :=
  let w := s.hubs h
  match w.pc with
  | .idle => none
  | .popped e =>
    if s.ticket = e.ticket then
      some { s.setHub h { w with pc := .won e } with
        ticket := e.ticket ||| 1, byPop := bump s.byPop e.ticket }
    else some (s.setHub h { w with pc := .done e })
  | .won e => some { s.setHub h { w with pc := .done e } with queued := s.queued ++ [e.ticket] }
  | .done e => some { s.setHub h { w with pc := .idle } with drops := bump s.drops e.ticket }
  | .purging [] kept dead =>
    some (s.setHub h { w with heap := kept ++ w.heap, pc := .dropping dead })
  | .purging (e :: todo) kept dead =>
    if e.io ∧ s.ticket ≠ e.ticket then
      some (s.setHub h { w with pc := .purging todo kept (dead ++ [e]) })
    else some (s.setHub h { w with pc := .purging todo (kept ++ [e]) dead })
  | .dropping [] => some (s.setHub h { w with pc := .idle })
  | .dropping (e :: dead) =>
    some { s.setHub h { w with pc := .dropping dead } with drops := bump s.drops e.ticket }

/-- The next step of `runloom_sched_sleep_signal_wake`. -/
def mainStep (s : State) : Option State :=
  match s.main with
  | .out => none
  | .locked exc =>
    match s.node with
    | some n =>
      if n.signaled = false ∧ s.slot n.hub = none then
        some { s.setSlot n.hub (some ⟨true, exc⟩) with main := .reserved exc n.hub n.ticket }
      else some { s with main := .out }
    | none => some { s with main := .out }
  | .reserved exc h t =>
    some { s with
      node := s.node.map fun n => { n with signaled := true }
      sent := s.sent ++ [(t, exc)]
      main := .marked h t }
  | .marked h t =>
    if s.ticket = t then
      some { s with
        ticket := t ||| 1, bySignal := bump s.bySignal t, main := .claimed h t true }
    else some { s with main := .claimed h t false }
  | .claimed h t ok => some { s with main := if ok then .post h t else .out }
  | .post h t => some { s.setHub h { s.hubs h with purge := true } with main := .wake h t }
  | .wake _ t => some { s with queued := s.queued ++ [t], main := .out }

@[grind =]
def step (s : State) : Action → Option State
  | .start h io =>
    match s.pc with
    | .idle => some { s with pc := .loaded h io ((s.ticket ||| 1) + 1) }
    | _ => none
  | .sleeper => sleeperStep s
  | .nomem =>
    match s.pc with
    | .counted _ _ t => some { s with pc := .undo t }
    | _ => none
  | .resume x =>
    match s.pc with
    | .parked h io t =>
      if x ∈ s.queued then
        some { s with
          queued := s.queued.erase x, ends := s.ends ++ [(t, x)], pc := .resumed h io t }
      else none
    | _ => none
  | .pop h e =>
    if (s.hubs h).pc = .idle ∧ e ∈ (s.hubs h).heap then
      some (s.setHub h { s.hubs h with heap := (s.hubs h).heap.erase e, pc := .popped e })
    else none
  | .purge h =>
    if (s.hubs h).pc = .idle ∧ (s.hubs h).purge = true then
      some (s.setHub h ⟨[], false, .purging (s.hubs h).heap [] []⟩)
    else none
  | .hub h => hubStep s h
  | .signal exc =>
    match s.main with
    | .out => some { s with main := .locked exc }
    | _ => none
  | .main => mainStep s
  | .reserve h exc =>
    if s.slot h = none then some (s.setSlot h (some ⟨false, exc⟩)) else none
  | .clear h =>
    match s.slot h with
    | some ⟨false, _⟩ => some (s.setSlot h none)
    | _ => none

def system : System State Action where
  init s := s = init
  step := step

/-! ## What is where -/

@[grind =]
def HubPc.hand : HubPc → List Entry
  | .idle => []
  | .popped e | .won e | .done e => [e]
  | .purging todo kept dead => todo ++ kept ++ dead
  | .dropping dead => dead

/-- The entries on a hub's heap and in the hands of its loop top. -/
def Hub.all (w : Hub) : List Entry := w.heap ++ w.pc.hand

/-- The sleep that waits to be claimed: its entry is on the heap. -/
def Pc.waits : Pc → Option ℕ
  | .pushed _ _ t | .linked _ t | .parked _ _ t => some t
  | _ => none

/-- The reference that the sleeper took for an entry that is not on a heap. -/
def Pc.own : Pc → Option ℕ
  | .counted _ _ t | .undo t => some t
  | _ => none

/-- The references to the g on behalf of ticket `t`, on the heap of hub `h`, in
the hub's hands or in the sleeper's. -/
def State.held (s : State) (h t : ℕ) : ℕ :=
  (s.hubs h).all.countP (fun e => e.ticket = t) + if s.pc.own = some t then 1 else 0

theorem lor_one (t : ℕ) : t ||| 1 = t / 2 * 2 + 1 := by
  have hdiv : (t ||| 1) / 2 = t / 2 := by
    rw [Nat.or_div_two]
    exact Nat.or_zero _
  have hmod : (t ||| 1) % 2 = 1 := by
    rw [Nat.or_mod_two_eq_one]
    exact .inr rfl
  omega

/-! ## Claims -/

/-- How far the claim of a ticket has got; `claimed` names the hub whose pop
made it, or `none` for a signal. -/
inductive Stage
  | unclaimed
  | claimed (who : Option ℕ)
  | queued
  | ended
  deriving DecidableEq

/-- The claim of the main thread whose wake is still to come. -/
def Main.pending : Main → Option ℕ
  | .claimed _ t true | .post _ t | .wake _ t => some t
  | _ => none

/-- The ticket that the main thread is about to claim. -/
def Main.target : Main → Option ℕ
  | .reserved _ _ t | .marked _ t => some t
  | _ => none

/-- A ticket that was pushed or linked: its sleep waits, or has ended. -/
def Known (s : State) (f : ℕ → Stage) (t : ℕ) : Prop :=
  t % 2 = 0 ∧ (s.pc.waits = some t ∨ f t = .ended)

structure Claims (s : State) (f : ℕ → Stage) : Prop where
  count : ∀ t, s.byPop t + s.bySignal t = if f t = .unclaimed then 0 else 1
  below : ∀ t, f t ≠ .unclaimed → t < s.ticket
  turn : ∀ t, f t ≠ .unclaimed → s.pc.waits = some t ∨ f t = .ended
  waits : ∀ t, s.pc.waits = some t → f t ≠ .ended ∧ t % 2 = 0
  entry : ∀ h e, e ∈ (s.hubs h).all → Known s f e.ticket
  node : ∀ n, s.node = some n → Known s f n.ticket
  target : ∀ t, s.main.target = some t → Known s f t
  won : ∀ h e, (s.hubs h).pc = .won e → f e.ticket = .claimed (some h)
  pending : ∀ t, s.main.pending = some t → f t = .claimed none
  queued : s.queued.Nodup ∧ ∀ t ∈ s.queued, f t = .queued
  ends : (s.ends.map Prod.fst).Nodup ∧ ∀ p ∈ s.ends, p.2 = p.1 ∧ f p.1 = .ended
  loaded : ∀ h io t, s.pc = .loaded h io t → s.ticket < t ∧ t % 2 = 0
  fresh : ∀ h io t, s.pc = .stored h io t ∨ s.pc = .counted h io t → f t = .unclaimed ∧ t % 2 = 0

variable {s t : State} {f : ℕ → Stage} {x k : ℕ} {w : Hub} {r : ℕ → Ref} {o : Option (ℕ × ℕ × ℕ)}

/-- A step that claims nothing and wakes nobody. -/
theorem Claims.move (h : Claims s f)
    (hticket : t.ticket = s.ticket) (hpop : t.byPop = s.byPop) (hsig : t.bySignal = s.bySignal)
    (hqueued : t.queued = s.queued) (hends : t.ends = s.ends)
    (hwaits : t.pc.waits = s.pc.waits)
    (hentry : ∀ k e, e ∈ (t.hubs k).all → e ∈ (s.hubs k).all)
    (hwon : ∀ k e, (t.hubs k).pc = .won e → (s.hubs k).pc = .won e)
    (hnode : ∀ n, t.node = some n → Known s f n.ticket)
    (htarget : ∀ x, t.main.target = some x → Known s f x)
    (hpending : ∀ x, t.main.pending = some x → s.main.pending = some x)
    (hloaded : ∀ k io x, t.pc = .loaded k io x → s.ticket < x ∧ x % 2 = 0)
    (hfresh : ∀ k io x, t.pc = .stored k io x ∨ t.pc = .counted k io x →
      f x = .unclaimed ∧ x % 2 = 0) : Claims t f := by
  have hknown : ∀ x, Known s f x → Known t f x := by
    intro x hx
    unfold Known
    rw [hwaits]
    exact hx
  constructor
  case count => rw [hpop, hsig]; exact h.count
  case below => rw [hticket]; exact h.below
  case turn => rw [hwaits]; exact h.turn
  case waits => rw [hwaits]; exact h.waits
  case entry => exact fun k e he => hknown _ (h.entry k e (hentry k e he))
  case node => exact fun n hn => hknown _ (hnode n hn)
  case target => exact fun x hx => hknown _ (htarget x hx)
  case won => exact fun k e he => h.won k e (hwon k e he)
  case pending => exact fun x hx => h.pending x (hpending x hx)
  case queued => rw [hqueued]; exact h.queued
  case ends => rw [hends]; exact h.ends
  case loaded => rw [hticket]; exact hloaded
  case fresh => exact hfresh

/-- A ticket that is still the g's own and is known is the waiting sleep's, and
nobody has claimed it. -/
theorem Claims.unclaimed (h : Claims s f) (hx : s.ticket = x)
    (hk : Known s f x) : s.pc.waits = some x ∧ f x = .unclaimed := by
  have hun : f x = .unclaimed := by
    by_contra hne
    exact absurd (h.below x hne) (by omega)
  refine ⟨hk.2.resolve_right ?_, hun⟩
  rw [hun]
  exact nofun

/-- The compare-and-swap of a pop or of a signal succeeds. -/
theorem Claims.claim {g : ℕ → Stage} (h : Claims s f) {w : Option ℕ}
    (hg : g = fun u => if u = x then .claimed w else f u)
    (hx : s.ticket = x) (hk : Known s f x) (hticket : t.ticket = x ||| 1)
    (hcount : ∀ u, t.byPop u + t.bySignal u =
      s.byPop u + s.bySignal u + if u = x then 1 else 0)
    (hpc : t.pc = s.pc) (hnode : t.node = s.node) (hqueued : t.queued = s.queued)
    (hends : t.ends = s.ends) (hentry : ∀ k e, e ∈ (t.hubs k).all → e ∈ (s.hubs k).all)
    (hwon : ∀ k e, (t.hubs k).pc = .won e →
      (s.hubs k).pc = .won e ∨ w = some k ∧ e.ticket = x)
    (htarget : ∀ y, t.main.target = some y → s.main.target = some y)
    (hpending : ∀ y, t.main.pending = some y → s.main.pending = some y ∨ w = none ∧ y = x) :
    Claims t g := by
  obtain ⟨hwaits, hun⟩ := h.unclaimed hx hk
  have hgx : g x = .claimed w := by simp [hg]
  have hgo : ∀ {u : ℕ}, u ≠ x → g u = f u := fun hu => by simp [hg, hu]
  have hx1 : x < t.ticket := by
    have := hk.1
    rw [hticket, lor_one]
    omega
  have hknown : ∀ u, Known s f u → Known t g u := by
    intro u hu
    refine ⟨hu.1, ?_⟩
    rw [hpc]
    by_cases hux : u = x
    · exact .inl (hux ▸ hwaits)
    · rw [hgo hux]
      exact hu.2
  have hne : ∀ {u : ℕ}, f u ≠ .unclaimed → u ≠ x := by
    rintro u hu rfl
    exact hu hun
  constructor
  case count =>
    intro u
    rw [hcount, h.count]
    by_cases hux : u = x
    · subst hux
      simp [hun, hgx]
    · simp [hux, hgo hux]
  case below =>
    intro u hu
    by_cases hux : u = x
    · exact hux ▸ hx1
    · rw [hgo hux] at hu
      have := h.below u hu
      omega
  case turn =>
    intro u hu
    rw [hpc]
    by_cases hux : u = x
    · exact .inl (hux ▸ hwaits)
    · rw [hgo hux] at hu ⊢
      exact h.turn u hu
  case waits =>
    intro u hu
    rw [hpc, hwaits] at hu
    cases hu
    refine ⟨?_, (h.waits x hwaits).2⟩
    rw [hgx]
    exact nofun
  case entry => exact fun k e he => hknown _ (h.entry k e (hentry k e he))
  case node => exact fun n hn => hknown _ (h.node n (hnode ▸ hn))
  case target => exact fun y hy => hknown _ (h.target y (htarget y hy))
  case won =>
    intro k e he
    rcases hwon k e he with hold | ⟨hw, hex⟩
    · have := h.won k e hold
      rw [hgo (hne (by rw [this]; exact nofun))]
      exact this
    · rw [hex, hgx, hw]
  case pending =>
    intro y hy
    rcases hpending y hy with hold | ⟨hw, hyx⟩
    · have := h.pending y hold
      rw [hgo (hne (by rw [this]; exact nofun))]
      exact this
    · rw [hyx, hgx, hw]
  case queued =>
    rw [hqueued]
    refine ⟨h.queued.1, fun u hu => ?_⟩
    have := h.queued.2 u hu
    rw [hgo (hne (by rw [this]; exact nofun))]
    exact this
  case ends =>
    rw [hends]
    refine ⟨h.ends.1, fun p hp => ?_⟩
    obtain ⟨heq, hend⟩ := h.ends.2 p hp
    refine ⟨heq, ?_⟩
    rw [hgo (hne (by rw [hend]; exact nofun))]
    exact hend
  case loaded =>
    intro k io u hu
    rw [hpc] at hu
    rw [hu] at hwaits
    cases hwaits
  case fresh =>
    intro k io u hu
    rw [hpc] at hu
    rcases hu with hu | hu
    all_goals
      rw [hu] at hwaits
      cases hwaits

/-- The claimer puts the g on a run queue. -/
theorem Claims.wake {g : ℕ → Stage} (h : Claims s f) {w : Option ℕ}
    (hg : g = fun u => if u = x then .queued else f u)
    (hx : f x = .claimed w) (hticket : t.ticket = s.ticket) (hpop : t.byPop = s.byPop)
    (hsig : t.bySignal = s.bySignal) (hpc : t.pc = s.pc) (hnode : t.node = s.node)
    (hqueued : t.queued = s.queued ++ [x]) (hends : t.ends = s.ends)
    (hentry : ∀ k e, e ∈ (t.hubs k).all → e ∈ (s.hubs k).all)
    (hwon : ∀ k e, (t.hubs k).pc = .won e → (s.hubs k).pc = .won e ∧ w ≠ some k)
    (htarget : ∀ y, t.main.target = some y → s.main.target = some y)
    (hpending : ∀ y, t.main.pending = some y → s.main.pending = some y ∧ w ≠ none) :
    Claims t g := by
  have hgx : g x = .queued := by simp [hg]
  have hgo : ∀ {u : ℕ}, u ≠ x → g u = f u := fun hu => by simp [hg, hu]
  have hun : f x ≠ .unclaimed := by
    rw [hx]
    exact nofun
  have hwaits : s.pc.waits = some x :=
    (h.turn x hun).resolve_right (by rw [hx]; exact nofun)
  have hknown : ∀ u, Known s f u → Known t g u := by
    intro u hu
    refine ⟨hu.1, ?_⟩
    rw [hpc]
    by_cases hux : u = x
    · exact .inl (hux ▸ hwaits)
    · rw [hgo hux]
      exact hu.2
  constructor
  case count =>
    intro u
    rw [hpop, hsig, h.count]
    by_cases hux : u = x
    · subst hux
      simp [hx, hgx]
    · rw [hgo hux]
  case below =>
    intro u hu
    rw [hticket]
    by_cases hux : u = x
    · exact hux ▸ h.below x hun
    · rw [hgo hux] at hu
      exact h.below u hu
  case turn =>
    intro u hu
    rw [hpc]
    by_cases hux : u = x
    · exact .inl (hux ▸ hwaits)
    · rw [hgo hux] at hu ⊢
      exact h.turn u hu
  case waits =>
    intro u hu
    rw [hpc, hwaits] at hu
    cases hu
    refine ⟨?_, (h.waits x hwaits).2⟩
    rw [hgx]
    exact nofun
  case entry => exact fun k e he => hknown _ (h.entry k e (hentry k e he))
  case node => exact fun n hn => hknown _ (h.node n (hnode ▸ hn))
  case target => exact fun y hy => hknown _ (h.target y (htarget y hy))
  case won =>
    intro k e he
    obtain ⟨hold, hw⟩ := hwon k e he
    have hf := h.won k e hold
    have hex : e.ticket ≠ x := by
      intro hex
      rw [hex, hx] at hf
      exact hw (Stage.claimed.inj hf)
    rw [hgo hex]
    exact hf
  case pending =>
    intro y hy
    obtain ⟨hold, hw⟩ := hpending y hy
    have hf := h.pending y hold
    have hyx : y ≠ x := by
      intro hyx
      rw [hyx, hx] at hf
      exact hw (Stage.claimed.inj hf)
    rw [hgo hyx]
    exact hf
  case queued =>
    rw [hqueued]
    have hnx : ∀ u ∈ s.queued, u ≠ x := by
      rintro u hu rfl
      have := h.queued.2 u hu
      rw [hx] at this
      cases this
    refine ⟨?_, fun u hu => ?_⟩
    · rw [List.nodup_append]
      refine ⟨h.queued.1, List.nodup_singleton _, fun u hu v hv => ?_⟩
      rw [List.mem_singleton.mp hv]
      exact hnx u hu
    · rcases List.mem_append.mp hu with hu | hu
      · rw [hgo (hnx u hu)]
        exact h.queued.2 u hu
      · rw [List.mem_singleton.mp hu, hgx]
  case ends =>
    rw [hends]
    refine ⟨h.ends.1, fun p hp => ?_⟩
    obtain ⟨heq, hend⟩ := h.ends.2 p hp
    have hpx : p.1 ≠ x := by
      intro hpx
      rw [hpx, hx] at hend
      cases hend
    exact ⟨heq, by rw [hgo hpx]; exact hend⟩
  case loaded =>
    intro k io u hu
    rw [hpc] at hu
    rw [hu] at hwaits
    cases hwaits
  case fresh =>
    intro k io u hu
    rw [hpc] at hu
    rcases hu with hu | hu
    all_goals
      rw [hu] at hwaits
      cases hwaits

/-- The sleeper resumes by the wake of its own claim. -/
theorem Claims.resume {g : ℕ → Stage} (h : Claims s f) {y : ℕ} {io : Bool}
    (hg : g = fun u => if u = x then .ended else f u) (hpc : s.pc = .parked k io x)
    (hy : y ∈ s.queued) (hpc' : t.pc = .resumed k io x) (hticket : t.ticket = s.ticket)
    (hpop : t.byPop = s.byPop) (hsig : t.bySignal = s.bySignal) (hnode : t.node = s.node)
    (hhubs : t.hubs = s.hubs) (hmain : t.main = s.main) (hqueued : t.queued = s.queued.erase y)
    (hends : t.ends = s.ends ++ [(x, y)]) : Claims t g := by
  have hgx : g x = .ended := by simp [hg]
  have hgo : ∀ {u : ℕ}, u ≠ x → g u = f u := fun hu => by simp [hg, hu]
  have hwaits : s.pc.waits = some x := by rw [hpc]; rfl
  have hyq := h.queued.2 y hy
  -- a run-queue entry is the waiting sleep's
  have hyx : y = x := by
    have := (h.turn y (by rw [hyq]; exact nofun)).resolve_right (by rw [hyq]; exact nofun)
    rw [hwaits] at this
    exact (Option.some.inj this).symm
  subst hyx
  have hother : ∀ {u : ℕ}, f u ≠ .queued → u ≠ y := by
    rintro u hu rfl
    exact hu hyq
  have hknown : ∀ u, Known s f u → Known t g u := by
    intro u hu
    refine ⟨hu.1, .inr ?_⟩
    by_cases huy : u = y
    · rw [huy, hgx]
    · rw [hgo huy]
      refine hu.2.resolve_left fun hw => ?_
      rw [hwaits] at hw
      exact huy (Option.some.inj hw).symm
  constructor
  case count =>
    intro u
    rw [hpop, hsig, h.count]
    by_cases huy : u = y
    · subst huy
      simp [hyq, hgx]
    · rw [hgo huy]
  case below =>
    intro u hu
    rw [hticket]
    by_cases huy : u = y
    · exact huy ▸ h.below y (by rw [hyq]; exact nofun)
    · exact h.below u (by rw [← hgo huy]; exact hu)
  case turn =>
    intro u hu
    right
    by_cases huy : u = y
    · rw [huy, hgx]
    · rw [hgo huy] at hu ⊢
      refine (h.turn u hu).resolve_left fun hw => ?_
      rw [hwaits] at hw
      exact huy (Option.some.inj hw).symm
  case waits =>
    intro u hu
    rw [hpc'] at hu
    cases hu
  case entry => exact fun j e he => hknown _ (h.entry j e (hhubs ▸ he))
  case node => exact fun n hn => hknown _ (h.node n (hnode ▸ hn))
  case target => exact fun u hu => hknown _ (h.target u (hmain ▸ hu))
  case won =>
    intro j e he
    have hf := h.won j e (hhubs ▸ he)
    rw [hgo (hother (by rw [hf]; exact nofun))]
    exact hf
  case pending =>
    intro u hu
    have hf := h.pending u (hmain ▸ hu)
    rw [hgo (hother (by rw [hf]; exact nofun))]
    exact hf
  case queued =>
    rw [hqueued]
    refine ⟨h.queued.1.erase y, fun u hu => ?_⟩
    obtain ⟨huy, hmem⟩ := (h.queued.1.mem_erase_iff).mp hu
    rw [hgo huy]
    exact h.queued.2 u hmem
  case ends =>
    rw [hends]
    constructor
    · rw [List.map_append, List.nodup_append]
      refine ⟨h.ends.1, List.nodup_singleton _, fun u hu v hv => ?_⟩
      obtain ⟨p, hp, rfl⟩ := List.mem_map.mp hu
      rw [List.mem_singleton.mp hv]
      exact hother (by rw [(h.ends.2 p hp).2]; exact nofun)
    intro p hp
    rcases List.mem_append.mp hp with hp | hp
    · obtain ⟨heq, hend⟩ := h.ends.2 p hp
      exact ⟨heq, by rw [hgo (hother (by rw [hend]; exact nofun))]; exact hend⟩
    · rw [List.mem_singleton.mp hp]
      exact ⟨rfl, hgx⟩
  case loaded =>
    intro j io' u hu
    rw [hpc'] at hu
    cases hu
  case fresh =>
    intro j io' u hu
    rw [hpc'] at hu
    rcases hu with hu | hu
    all_goals cases hu

/-- A new ticket, above all the others. -/
theorem Claims.store (h : Claims s f) {io : Bool}
    (hpc : s.pc = .loaded k io x) (hpc' : t.pc = .stored k io x) (hticket : t.ticket = x)
    (hpop : t.byPop = s.byPop) (hsig : t.bySignal = s.bySignal) (hnode : t.node = s.node)
    (hhubs : t.hubs = s.hubs) (hmain : t.main = s.main) (hqueued : t.queued = s.queued)
    (hends : t.ends = s.ends) : Claims t f := by
  obtain ⟨hlt, heven⟩ := h.loaded k io x hpc
  have hw : s.pc.waits = t.pc.waits := by
    rw [hpc, hpc']
    rfl
  have hknown : ∀ u, Known s f u → Known t f u := by
    intro u hu
    unfold Known
    rw [← hw]
    exact hu
  have hun : f x = .unclaimed := by
    by_contra hne
    have := h.below x hne
    omega
  constructor
  case count => rw [hpop, hsig]; exact h.count
  case below =>
    intro u hu
    have := h.below u hu
    omega
  case turn => rw [← hw]; exact h.turn
  case waits => rw [← hw]; exact h.waits
  case entry => exact fun j e he => hknown _ (h.entry j e (hhubs ▸ he))
  case node => exact fun n hn => hknown _ (h.node n (hnode ▸ hn))
  case target => exact fun u hu => hknown _ (h.target u (hmain ▸ hu))
  case won => rw [hhubs]; exact h.won
  case pending => rw [hmain]; exact h.pending
  case queued => rw [hqueued]; exact h.queued
  case ends => rw [hends]; exact h.ends
  case loaded =>
    intro j io' u hu
    rw [hpc'] at hu
    cases hu
  case fresh =>
    intro j io' u hu
    rw [hpc'] at hu
    rcases hu with hu | hu
    all_goals cases hu
    exact ⟨hun, heven⟩

/-- The entry goes on a heap. -/
theorem Claims.push (h : Claims s f) {io : Bool}
    (hpc : s.pc = .counted k io x) (hpc' : t.pc = .pushed k io x) (hticket : t.ticket = s.ticket)
    (hpop : t.byPop = s.byPop) (hsig : t.bySignal = s.bySignal) (hnode : t.node = s.node)
    (hentry : ∀ j e, e ∈ (t.hubs j).all → e ∈ (s.hubs j).all ∨ e.ticket = x)
    (hhpc : ∀ j, (t.hubs j).pc = (s.hubs j).pc) (hmain : t.main = s.main)
    (hqueued : t.queued = s.queued) (hends : t.ends = s.ends) : Claims t f := by
  obtain ⟨hun, heven⟩ := h.fresh k io x (.inr hpc)
  have hended : ∀ u, Known s f u → Known t f u := by
    intro u hu
    refine ⟨hu.1, .inr (hu.2.resolve_left ?_)⟩
    rw [hpc]
    exact nofun
  constructor
  case count => rw [hpop, hsig]; exact h.count
  case below => rw [hticket]; exact h.below
  case turn =>
    intro u hu
    refine .inr ((h.turn u hu).resolve_left ?_)
    rw [hpc]
    exact nofun
  case waits =>
    intro u hu
    rw [hpc'] at hu
    cases hu
    refine ⟨?_, heven⟩
    rw [hun]
    exact nofun
  case entry =>
    intro j e he
    rcases hentry j e he with hold | hex
    · exact hended _ (h.entry j e hold)
    · rw [hex]
      exact ⟨heven, .inl (by rw [hpc']; rfl)⟩
  case node => exact fun n hn => hended _ (h.node n (hnode ▸ hn))
  case target => exact fun u hu => hended _ (h.target u (hmain ▸ hu))
  case won =>
    intro j e he
    rw [hhpc] at he
    exact h.won j e he
  case pending => rw [hmain]; exact h.pending
  case queued => rw [hqueued]; exact h.queued
  case ends => rw [hends]; exact h.ends
  case loaded =>
    intro j io' u hu
    rw [hpc'] at hu
    cases hu
  case fresh =>
    intro j io' u hu
    rw [hpc'] at hu
    rcases hu with hu | hu
    all_goals cases hu

theorem mem_all_of_set {hubs : ℕ → Hub} {h : ℕ}
    (hw : ∀ e ∈ w.all, e ∈ (hubs h).all) (k : ℕ) (e : Entry)
    (he : e ∈ (if k = h then w else hubs k).all) : e ∈ (hubs k).all := by
  by_cases hk : k = h
  · rw [if_pos hk] at he
    rw [hk]
    exact hw e he
  · rw [if_neg hk] at he
    exact he

theorem won_of_set {hubs : ℕ → Hub} {h : ℕ} (hw : ∀ e, w.pc ≠ .won e) (k : ℕ)
    (e : Entry) (he : (if k = h then w else hubs k).pc = .won e) :
    (hubs k).pc = .won e ∧ k ≠ h := by
  by_cases hk : k = h
  · rw [if_pos hk] at he
    exact absurd he (hw e)
  · rw [if_neg hk] at he
    exact ⟨he, hk⟩

/-- A step of a hub that claims nothing and wakes nobody. -/
theorem Claims.setHub (h : Claims s f)
    (hhubs : t.hubs = fun j => if j = k then w else s.hubs j)
    (hall : ∀ e ∈ w.all, e ∈ (s.hubs k).all) (hwon : ∀ e, w.pc ≠ .won e)
    (hticket : t.ticket = s.ticket) (hpop : t.byPop = s.byPop) (hsig : t.bySignal = s.bySignal)
    (hqueued : t.queued = s.queued) (hends : t.ends = s.ends) (hpc : t.pc = s.pc)
    (hnode : t.node = s.node) (hmain : t.main = s.main) : Claims t f := by
  refine h.move hticket hpop hsig hqueued hends (by rw [hpc]) ?_ ?_ ?_ ?_ ?_ ?_ ?_
  · intro j e he
    rw [hhubs] at he
    exact mem_all_of_set hall j e he
  · intro j e he
    rw [hhubs] at he
    exact (won_of_set hwon j e he).1
  · rw [hnode]
    exact h.node
  · rw [hmain]
    exact h.target
  · rw [hmain]
    exact fun x hx => hx
  · rw [hpc]
    exact h.loaded
  · rw [hpc]
    exact h.fresh

/-- A step of the sleeper that neither takes a ticket nor parks. -/
theorem Claims.setPc (h : Claims s f) {p : Pc} (hpc : t.pc = p)
    (hwaits : p.waits = s.pc.waits) (hloaded : ∀ k io x, p ≠ .loaded k io x)
    (hfresh : ∀ k io x, p = .stored k io x ∨ p = .counted k io x →
      f x = .unclaimed ∧ x % 2 = 0)
    (hnode : ∀ n, t.node = some n → Known s f n.ticket)
    (hticket : t.ticket = s.ticket) (hpop : t.byPop = s.byPop) (hsig : t.bySignal = s.bySignal)
    (hqueued : t.queued = s.queued) (hends : t.ends = s.ends) (hhubs : t.hubs = s.hubs)
    (hmain : t.main = s.main) : Claims t f := by
  refine h.move hticket hpop hsig hqueued hends (by rw [hpc]; exact hwaits) ?_ ?_ hnode ?_ ?_ ?_ ?_
  · rw [hhubs]
    exact fun k e he => he
  · rw [hhubs]
    exact fun k e he => he
  · rw [hmain]
    exact h.target
  · rw [hmain]
    exact fun x hx => hx
  · rw [hpc]
    exact fun k io x hx => absurd hx (hloaded k io x)
  · rw [hpc]
    exact hfresh

theorem sleeperStep_claims (h : Claims s f)
    (hs : sleeperStep s = some t) : Claims t f := by
  unfold sleeperStep at hs
  split at hs
  case h_1 hpc =>
    cases hs
    exact h.store hpc rfl rfl rfl rfl rfl rfl rfl rfl rfl
  case h_2 k io x hpc =>
    cases hs
    refine h.setPc rfl (by rw [hpc]; rfl) nofun ?_ h.node rfl rfl rfl rfl rfl rfl rfl
    rintro j io' y (hy | hy)
    · cases hy
    · cases hy
      exact h.fresh k io x (.inl hpc)
  case h_3 k io x hpc =>
    cases hs
    refine h.push hpc rfl rfl rfl rfl rfl ?_ ?_ rfl rfl rfl
    · intro j e he
      by_cases hj : j = k
      · subst hj
        simp only [State.setHub, if_true, Hub.all, List.cons_append, List.mem_cons] at he
        rcases he with rfl | he
        · exact .inr rfl
        · exact .inl he
      · simp only [State.setHub, if_neg hj] at he
        exact .inl he
    · intro j
      by_cases hj : j = k
      · simp [State.setHub, hj]
      · simp [State.setHub, hj]
  case h_4 x hpc =>
    cases hs
    exact h.setPc rfl (by rw [hpc]; rfl) nofun nofun h.node rfl rfl rfl rfl rfl rfl rfl
  case h_5 k x hpc =>
    split at hs
    case isTrue => cases hs
    case isFalse =>
      cases hs
      refine h.setPc rfl (by rw [hpc]; rfl) nofun nofun ?_ rfl rfl rfl rfl rfl rfl rfl
      have hw : s.pc.waits = some x := by rw [hpc]; rfl
      intro n hn
      cases hn
      exact ⟨(h.waits x hw).2, .inl hw⟩
  case h_6 k x hpc =>
    cases hs
    exact h.setPc rfl (by rw [hpc]; rfl) nofun nofun h.node rfl rfl rfl rfl rfl rfl rfl
  case h_7 k x hpc =>
    cases hs
    exact h.setPc rfl (by rw [hpc]; rfl) nofun nofun h.node rfl rfl rfl rfl rfl rfl rfl
  case h_8 k x hpc =>
    split at hs
    case isTrue => cases hs
    case isFalse =>
      cases hs
      exact h.setPc rfl (by rw [hpc]; rfl) nofun nofun nofun rfl rfl rfl rfl rfl rfl rfl
  case h_9 hpc =>
    cases hs
    exact h.setPc rfl (by rw [hpc]; rfl) nofun nofun h.node rfl rfl rfl rfl rfl rfl rfl
  case h_10 hpc =>
    cases hs
    exact h.setPc rfl (by rw [hpc]; rfl) nofun nofun h.node rfl rfl rfl rfl rfl rfl rfl
  case h_11 hpc =>
    cases hs
    exact h.setPc rfl (by rw [hpc]; rfl) nofun nofun h.node rfl rfl rfl rfl rfl rfl rfl
  case h_12 hpc =>
    cases hs
    exact h.setPc rfl (by rw [hpc]; rfl) nofun nofun h.node rfl rfl rfl rfl rfl rfl rfl
  case h_13 => cases hs

theorem hubStep_claims (h : Claims s f)
    (hs : hubStep s k = some t) : ∃ g, Claims t g := by
  unfold hubStep at hs
  dsimp only at hs
  split at hs
  case h_1 => cases hs
  case h_2 e hpc =>
    have hmem : e ∈ (s.hubs k).all := by simp [Hub.all, hpc, HubPc.hand]
    split at hs
    case isTrue hcas =>
      cases hs
      refine ⟨_, h.claim (w := some k) rfl hcas (h.entry k e hmem) rfl ?_ rfl rfl rfl rfl ?_ ?_
        (fun y hy => hy) (fun y hy => .inl hy)⟩
      · intro u
        dsimp only [State.setHub, bump]
        split <;> omega
      · intro j e' he'
        exact mem_all_of_set (by simp [Hub.all, hpc, HubPc.hand]) j e' he'
      · intro j e' he'
        by_cases hj : j = k
        · subst hj
          simp only [State.setHub, if_true, HubPc.won.injEq] at he'
          exact .inr ⟨rfl, by rw [← he']⟩
        · simp only [State.setHub, if_neg hj] at he'
          exact .inl he'
    case isFalse =>
      cases hs
      exact ⟨f, h.setHub rfl (by simp [Hub.all, hpc, HubPc.hand]) nofun rfl rfl rfl rfl rfl rfl rfl rfl⟩
  case h_3 e hpc =>
    cases hs
    refine ⟨_, h.wake rfl (h.won k e hpc) rfl rfl rfl rfl rfl rfl rfl ?_ ?_ (fun y hy => hy)
      (fun y hy => ⟨hy, nofun⟩)⟩
    · intro j e' he'
      exact mem_all_of_set (by simp [Hub.all, hpc, HubPc.hand]) j e' he'
    · intro j e' he'
      obtain ⟨hold, hj⟩ : (s.hubs j).pc = .won e' ∧ j ≠ k := by
        refine won_of_set ?_ j e' he'
        exact nofun
      exact ⟨hold, fun heq => hj (Option.some.inj heq).symm⟩
  case h_4 e hpc =>
    cases hs
    exact ⟨f, h.setHub rfl (fun e' he' => by
      simp only [Hub.all, HubPc.hand, List.append_nil] at he'
      exact List.mem_append_left _ he') nofun rfl rfl rfl rfl rfl rfl rfl rfl⟩
  case h_5 kept dead hpc =>
    cases hs
    refine ⟨f, h.setHub rfl ?_ nofun rfl rfl rfl rfl rfl rfl rfl rfl⟩
    intro e' he'
    simp only [Hub.all, HubPc.hand, hpc, List.mem_append, List.nil_append] at he' ⊢
    tauto
  case h_6 e todo kept dead hpc =>
    split at hs
    all_goals
      cases hs
      refine ⟨f, h.setHub rfl ?_ nofun rfl rfl rfl rfl rfl rfl rfl rfl⟩
      intro e' he'
      simp only [Hub.all, HubPc.hand, hpc, List.mem_append, List.mem_cons] at he' ⊢
      tauto
  case h_7 hpc =>
    cases hs
    refine ⟨f, h.setHub rfl ?_ nofun rfl rfl rfl rfl rfl rfl rfl rfl⟩
    intro e' he'
    simpa [Hub.all, HubPc.hand, hpc] using he'
  case h_8 e dead hpc =>
    cases hs
    refine ⟨f, h.setHub rfl ?_ nofun rfl rfl rfl rfl rfl rfl rfl rfl⟩
    intro e' he'
    simp only [Hub.all, HubPc.hand, hpc, List.mem_append, List.mem_cons] at he' ⊢
    tauto

theorem mainStep_claims (h : Claims s f)
    (hs : mainStep s = some t) : ∃ g, Claims t g := by
  have hmove : ∀ {u : State}, u.ticket = s.ticket → u.byPop = s.byPop →
      u.bySignal = s.bySignal → u.queued = s.queued → u.ends = s.ends → u.pc = s.pc →
      u.hubs = s.hubs → (∀ n, u.node = some n → Known s f n.ticket) →
      (∀ x, u.main.target = some x → Known s f x) →
      (∀ x, u.main.pending = some x → s.main.pending = some x) → Claims u f := by
    intro u h1 h2 h3 h4 h5 h6 h7 h8 h9 h10
    refine h.move h1 h2 h3 h4 h5 (by rw [h6]) ?_ ?_ h8 h9 h10 ?_ ?_
    · rw [h7]
      exact fun k e he => he
    · rw [h7]
      exact fun k e he => he
    · rw [h6]
      exact h.loaded
    · rw [h6]
      exact h.fresh
  unfold mainStep at hs
  split at hs
  case h_1 => cases hs
  case h_2 exc hmain =>
    split at hs
    case h_1 n hn =>
      split at hs
      case isTrue =>
        cases hs
        refine ⟨f, hmove rfl rfl rfl rfl rfl rfl rfl h.node ?_ (by intros; contradiction)⟩
        intro x hx
        cases hx
        exact h.node n hn
      case isFalse =>
        cases hs
        exact ⟨f, hmove rfl rfl rfl rfl rfl rfl rfl h.node (by intros; contradiction) (by intros; contradiction)⟩
    case h_2 =>
      cases hs
      exact ⟨f, hmove rfl rfl rfl rfl rfl rfl rfl h.node (by intros; contradiction) (by intros; contradiction)⟩
  case h_3 exc k x hmain =>
    cases hs
    refine ⟨f, hmove rfl rfl rfl rfl rfl rfl rfl ?_ ?_ (by intros; contradiction)⟩
    · intro n hn
      obtain ⟨m, hm, rfl⟩ := Option.map_eq_some_iff.mp hn
      exact h.node m hm
    · intro y hy
      cases hy
      exact h.target x (by rw [hmain]; rfl)
  case h_4 k x hmain =>
    split at hs
    case isTrue hcas =>
      cases hs
      refine ⟨_, h.claim (w := none) rfl hcas (h.target x (by rw [hmain]; rfl)) rfl ?_ rfl rfl
        rfl rfl (fun j e he => he) (fun j e he => .inl he) (by intros; contradiction) ?_⟩
      · intro u
        dsimp only [bump]
        split <;> omega
      · intro y hy
        cases hy
        exact .inr ⟨rfl, rfl⟩
    case isFalse =>
      cases hs
      exact ⟨f, hmove rfl rfl rfl rfl rfl rfl rfl h.node (by intros; contradiction) (by intros; contradiction)⟩
  case h_5 k x ok hmain =>
    cases hs
    refine ⟨f, hmove rfl rfl rfl rfl rfl rfl rfl h.node ?_ ?_⟩
    · intro y hy
      cases ok
      all_goals cases hy
    · intro y hy
      cases ok
      · cases hy
      · rw [hmain]
        exact hy
  case h_6 k x hmain =>
    cases hs
    refine ⟨f, h.move rfl rfl rfl rfl rfl rfl ?_ ?_ h.node (by intros; contradiction) ?_ h.loaded h.fresh⟩
    · intro j e he
      refine mem_all_of_set ?_ j e he
      exact fun e' he' => he'
    · intro j e he
      by_cases hj : j = k
      · subst hj
        simpa [State.setHub] using he
      · simpa [State.setHub, hj] using he
    · rw [hmain]
      exact fun y hy => hy
  case h_7 k x hmain =>
    cases hs
    exact ⟨_, h.wake rfl (h.pending x (by rw [hmain]; rfl)) rfl rfl rfl rfl rfl rfl rfl
      (fun j e he => he) (fun j e he => ⟨he, nofun⟩) nofun nofun⟩

/-- **Step lemma** for the claims. -/
theorem step_claims {a : Action} (h : ∃ f, Claims s f)
    (hs : step s a = some t) : ∃ f, Claims t f := by
  obtain ⟨f, h⟩ := h
  cases a with
  | start k io =>
    dsimp only [step] at hs
    split at hs
    case h_1 hpc =>
      cases hs
      refine ⟨f, h.move rfl rfl rfl rfl rfl (by rw [hpc]; rfl) (fun j e he => he)
        (fun j e he => he) h.node h.target (fun x hx => hx) ?_ ?_⟩
      · intro j io' x hx
        cases hx
        rw [lor_one]
        omega
      · rintro j io' x (hx | hx)
        all_goals cases hx
    case h_2 => cases hs
  | sleeper => exact ⟨f, sleeperStep_claims h hs⟩
  | nomem =>
    dsimp only [step] at hs
    split at hs
    case h_1 hpc =>
      cases hs
      exact ⟨f, h.setPc rfl (by rw [hpc]; rfl) nofun nofun h.node rfl rfl rfl rfl rfl rfl rfl⟩
    case h_2 => cases hs
  | resume y =>
    dsimp only [step] at hs
    split at hs
    case h_1 hpc =>
      split at hs
      case isTrue hy =>
        cases hs
        exact ⟨_, h.resume rfl hpc hy rfl rfl rfl rfl rfl rfl rfl rfl rfl⟩
      case isFalse => cases hs
    case h_2 => cases hs
  | pop k e =>
    dsimp only [step] at hs
    split at hs
    case isTrue hk =>
      cases hs
      refine ⟨f, h.setHub rfl ?_ nofun rfl rfl rfl rfl rfl rfl rfl rfl⟩
      intro e' he'
      simp only [Hub.all, HubPc.hand, List.mem_append, List.mem_singleton] at he' ⊢
      rcases he' with he' | rfl
      · exact .inl (List.mem_of_mem_erase he')
      · exact .inl hk.2
    case isFalse => cases hs
  | purge k =>
    dsimp only [step] at hs
    split at hs
    case isTrue hk =>
      cases hs
      refine ⟨f, h.setHub rfl ?_ nofun rfl rfl rfl rfl rfl rfl rfl rfl⟩
      intro e' he'
      simp only [Hub.all, HubPc.hand, List.nil_append, List.append_nil] at he'
      exact List.mem_append_left _ he'
    case isFalse => cases hs
  | hub k => exact hubStep_claims h hs
  | signal exc =>
    dsimp only [step] at hs
    split at hs
    case h_1 =>
      cases hs
      exact ⟨f, h.move rfl rfl rfl rfl rfl rfl (fun j e he => he) (fun j e he => he) h.node
        (by intros; contradiction) (by intros; contradiction) h.loaded h.fresh⟩
    case h_2 => cases hs
  | main => exact mainStep_claims h hs
  | reserve k exc =>
    dsimp only [step] at hs
    split at hs
    case isTrue =>
      cases hs
      exact ⟨f, h.move rfl rfl rfl rfl rfl rfl (fun j e he => he) (fun j e he => he) h.node
        h.target (fun x hx => hx) h.loaded h.fresh⟩
    case isFalse => cases hs
  | clear k =>
    dsimp only [step] at hs
    split at hs
    case h_1 =>
      cases hs
      exact ⟨f, h.move rfl rfl rfl rfl rfl rfl (fun j e he => he) (fun j e he => he) h.node
        h.target (fun x hx => hx) h.loaded h.fresh⟩
    case h_2 => cases hs

/-! ## References -/

/-- Who has the reference that was taken for a ticket: nobody yet, the sleeper,
a hub, or it has been dropped. -/
inductive Ref
  | none
  | own
  | on (h : ℕ)
  | dropped
  deriving DecidableEq

/-- The number of entries with ticket `t`. -/
def entries (l : List Entry) (t : ℕ) : ℕ := l.countP fun e => e.ticket = t

@[simp] theorem entries_nil (t : ℕ) : entries [] t = 0 := rfl

@[simp] theorem entries_append (l m : List Entry) (t : ℕ) :
    entries (l ++ m) t = entries l t + entries m t := List.countP_append

@[simp] theorem entries_cons (e : Entry) (l : List Entry) (t : ℕ) :
    entries (e :: l) t = entries l t + if e.ticket = t then 1 else 0 := by
  simp [entries, List.countP_cons]

theorem entries_erase {l : List Entry} {e : Entry} (he : e ∈ l) (t : ℕ) :
    entries (l.erase e) t + (if e.ticket = t then 1 else 0) = entries l t := by
  rw [entries, entries, (List.perm_cons_erase he).countP_eq, List.countP_cons]
  simp

structure Refs (s : State) (r : ℕ → Ref) : Prop where
  taken : ∀ t, s.taken t = if r t = .none then 0 else 1
  drops : ∀ t, s.drops t = if r t = .dropped then 1 else 0
  entry : ∀ h t, entries (s.hubs h).all t = if r t = .on h then 1 else 0
  own : ∀ t, s.pc.own = some t ↔ r t = .own
  low : ∀ t, r t ≠ .none → t ≤ s.ticket
  loaded : ∀ h io t, s.pc = .loaded h io t → s.ticket < t
  stored : ∀ h io t, s.pc = .stored h io t → r t = .none ∧ t ≤ s.ticket

/-- A step that moves no reference. -/
theorem Refs.move (h : Refs s r) (htaken : t.taken = s.taken)
    (hdrops : t.drops = s.drops)
    (hentry : ∀ k u, entries (t.hubs k).all u = entries (s.hubs k).all u)
    (hown : t.pc.own = s.pc.own) (hticket : s.ticket ≤ t.ticket)
    (hloaded : ∀ k io x, t.pc = .loaded k io x → t.ticket < x)
    (hstored : ∀ k io x, t.pc = .stored k io x → r x = .none ∧ x ≤ t.ticket) : Refs t r := by
  constructor
  case taken => rw [htaken]; exact h.taken
  case drops => rw [hdrops]; exact h.drops
  case entry =>
    intro k u
    rw [hentry]
    exact h.entry k u
  case own => rw [hown]; exact h.own
  case low => exact fun u hu => Nat.le_trans (h.low u hu) hticket
  case loaded => exact hloaded
  case stored => exact hstored

/-- The reference for one ticket goes to `v`. -/
theorem Refs.set {g : ℕ → Ref} (h : Refs s r) {v : Ref}
    (hg : g = fun u => if u = x then v else r u) (hv : v ≠ .none)
    (htaken : ∀ u, t.taken u = if u = x then 1 else s.taken u)
    (hdrops : ∀ u, t.drops u = if u = x then (if v = .dropped then 1 else 0) else s.drops u)
    (hentry : ∀ k u, entries (t.hubs k).all u =
      if u = x then (if v = .on k then 1 else 0) else entries (s.hubs k).all u)
    (hown : ∀ u, t.pc.own = some u ↔ if u = x then v = .own else s.pc.own = some u)
    (hticket : t.ticket = s.ticket) (hx : x ≤ s.ticket)
    (hloaded : ∀ k io y, t.pc = .loaded k io y → s.ticket < y)
    (hstored : ∀ k io y, t.pc = .stored k io y → s.pc = .stored k io y ∧ y ≠ x) : Refs t g := by
  have hgx : g x = v := by simp [hg]
  have hgo : ∀ {u : ℕ}, u ≠ x → g u = r u := fun hu => by simp [hg, hu]
  constructor
  case taken =>
    intro u
    rw [htaken]
    by_cases hu : u = x
    · subst hu
      rw [if_pos rfl, hgx, if_neg hv]
    · rw [if_neg hu, hgo hu, h.taken]
  case drops =>
    intro u
    rw [hdrops]
    by_cases hu : u = x
    · subst hu
      rw [if_pos rfl, hgx]
    · rw [if_neg hu, hgo hu, h.drops]
  case entry =>
    intro k u
    rw [hentry]
    by_cases hu : u = x
    · subst hu
      rw [if_pos rfl, hgx]
    · rw [if_neg hu, hgo hu, h.entry]
  case own =>
    intro u
    rw [hown]
    by_cases hu : u = x
    · subst hu
      rw [if_pos rfl, hgx]
    · rw [if_neg hu, hgo hu, h.own]
  case low =>
    intro u hu
    rw [hticket]
    by_cases hux : u = x
    · exact hux ▸ hx
    · exact h.low u (by rw [← hgo hux]; exact hu)
  case loaded => rw [hticket]; exact hloaded
  case stored =>
    intro k io y hy
    obtain ⟨hold, hyx⟩ := hstored k io y hy
    rw [hgo hyx, hticket]
    exact h.stored k io y hold

/-- A hub drops the reference of an entry that leaves its hands. -/
theorem Refs.drop (h : Refs s r)
    (htaken : t.taken = s.taken) (hdrops : t.drops = bump s.drops x)
    (hself : ∀ u, entries (t.hubs k).all u + (if x = u then 1 else 0) = entries (s.hubs k).all u)
    (hhubs : ∀ j, j ≠ k → t.hubs j = s.hubs j) (hpc : t.pc = s.pc)
    (hticket : t.ticket = s.ticket) : ∃ g, Refs t g := by
  have hx : r x = .on k := by
    by_contra hne
    have h1 := h.entry k x
    rw [if_neg hne] at h1
    have h2 := hself x
    rw [if_pos rfl] at h2
    omega
  refine ⟨_, h.set (x := x) (v := .dropped) rfl nofun ?_ ?_ ?_ ?_ hticket ?_ ?_ ?_⟩
  · intro u
    rw [htaken]
    by_cases hu : u = x
    · rw [if_pos hu, h.taken, hu, hx, if_neg nofun]
    · rw [if_neg hu]
  · intro u
    rw [hdrops, bump]
    by_cases hu : u = x
    · rw [if_pos hu, if_pos hu, h.drops, hu, hx, if_neg nofun, if_pos rfl]
    · rw [if_neg hu, if_neg hu]
  · intro j u
    by_cases hj : j = k
    · subst hj
      have h1 := h.entry j u
      have h2 := hself u
      by_cases hu : u = x
      · subst hu
        rw [if_pos rfl] at h2
        rw [if_pos hx] at h1
        rw [if_pos rfl, if_neg nofun]
        omega
      · rw [if_neg (Ne.symm hu)] at h2
        rw [if_neg hu]
        exact h2
    · rw [hhubs j hj]
      by_cases hu : u = x
      · rw [if_pos hu, if_neg nofun, h.entry, hu, hx, if_neg]
        exact fun heq => hj (Ref.on.inj heq).symm
      · rw [if_neg hu]
  · intro u
    rw [hpc]
    by_cases hu : u = x
    · rw [if_pos hu, h.own, hu, hx]
      exact ⟨(by intros; contradiction), (by intros; contradiction)⟩
    · rw [if_neg hu]
  · exact h.low x (by rw [hx]; exact nofun)
  · rw [hpc]
    exact h.loaded
  · rw [hpc]
    intro j io y hy
    refine ⟨hy, ?_⟩
    rintro rfl
    have := (h.stored j io y hy).1
    rw [hx] at this
    cases this

/-- The sleeper's own steps on a reference: it takes it, gives it to a heap or
drops it again. -/
theorem Refs.sleeper (h : Refs s r) {v : Ref}
    (hown : ∀ u, s.pc.own = some u → u = x) (hv : v ≠ .none)
    (htaken : ∀ u, t.taken u = if u = x then 1 else s.taken u)
    (hdrops : ∀ u, t.drops u = if u = x then (if v = .dropped then 1 else 0) else s.drops u)
    (hentry : ∀ k u, entries (t.hubs k).all u =
      if u = x then (if v = .on k then 1 else 0) else entries (s.hubs k).all u)
    (hpc : t.pc.own = if v = .own then some x else none) (hticket : t.ticket = s.ticket)
    (hx : x ≤ s.ticket) (hloaded : ∀ k io y, t.pc ≠ .loaded k io y)
    (hstored : ∀ k io y, t.pc ≠ .stored k io y) : ∃ g, Refs t g := by
  refine ⟨_, h.set rfl hv htaken hdrops hentry ?_ hticket hx
    (fun k io y hy => absurd hy (hloaded k io y)) (fun k io y hy => absurd hy (hstored k io y))⟩
  intro u
  rw [hpc]
  by_cases hu : u = x
  · rw [if_pos hu, hu]
    by_cases hvo : v = .own
    · simp [hvo]
    · simp [hvo]
  · rw [if_neg hu]
    have hnone : s.pc.own ≠ some u := fun he => hu (hown u he)
    by_cases hvo : v = .own
    · simp [hvo, hnone, Ne.symm hu]
    · simp [hvo, hnone]

theorem sleeperStep_refs (h : Refs s r)
    (hs : sleeperStep s = some t) : ∃ g, Refs t g := by
  have hmove : ∀ {u : State}, u.taken = s.taken → u.drops = s.drops → u.hubs = s.hubs →
      u.ticket = s.ticket → u.pc.own = s.pc.own → (∀ k io x, u.pc ≠ .loaded k io x) →
      (∀ k io x, u.pc ≠ .stored k io x) → ∃ g, Refs u g := by
    intro u h1 h2 h3 h4 h5 h6 h7
    refine ⟨r, h.move h1 h2 (by rw [h3]; exact fun _ _ => rfl) h5 (Nat.le_of_eq h4.symm) ?_ ?_⟩
    · exact fun k io x hx => absurd hx (h6 k io x)
    · exact fun k io x hx => absurd hx (h7 k io x)
  unfold sleeperStep at hs
  split at hs
  case h_1 k io x hpc =>
    cases hs
    have hlt := h.loaded k io x hpc
    refine ⟨r, h.move rfl rfl (fun _ _ => rfl) (by rw [hpc]; rfl) (Nat.le_of_lt hlt) (by intros; contradiction) ?_⟩
    intro j io' y hy
    cases hy
    refine ⟨?_, Nat.le_refl _⟩
    by_contra hne
    have := h.low x hne
    omega
  case h_2 k io x hpc =>
    cases hs
    obtain ⟨hn, hle⟩ := h.stored k io x hpc
    refine h.sleeper (x := x) (v := .own) ?_ nofun ?_ ?_ ?_ rfl rfl hle nofun nofun
    · rw [hpc]
      exact (by intros; contradiction)
    · intro u
      dsimp only [bump]
      by_cases hu : u = x
      · rw [if_pos hu, if_pos hu, hu, h.taken, if_pos hn]
      · rw [if_neg hu, if_neg hu]
    · intro u
      by_cases hu : u = x
      · rw [if_pos hu, hu, h.drops, hn]
        rfl
      · rw [if_neg hu]
    · intro j u
      by_cases hu : u = x
      · rw [if_pos hu, hu, h.entry, hn]
        rfl
      · rw [if_neg hu]
  case h_3 k io x hpc =>
    cases hs
    have hx : r x = .own := (h.own x).mp (by rw [hpc]; rfl)
    refine h.sleeper (x := x) (v := .on k) ?_ nofun ?_ ?_ ?_ rfl rfl
      (h.low x (by rw [hx]; exact nofun)) nofun nofun
    · rw [hpc]
      exact fun u hu => (Option.some.inj hu).symm
    · intro u
      by_cases hu : u = x
      · rw [if_pos hu, hu]
        exact (h.taken x).trans (by rw [hx]; rfl)
      · rw [if_neg hu]
        rfl
    · intro u
      by_cases hu : u = x
      · rw [if_pos hu, hu]
        exact (h.drops x).trans (by rw [hx]; rfl)
      · rw [if_neg hu]
        rfl
    · intro j u
      have h1 := h.entry j u
      by_cases hj : j = k
      · subst hj
        simp only [State.setHub, if_true, Hub.all, List.cons_append, entries_cons]
        by_cases hu : u = x
        · subst hu
          rw [hx] at h1
          simpa [Hub.all] using h1
        · simp [hu, Ne.symm hu]
      · simp only [State.setHub, if_neg hj]
        by_cases hu : u = x
        · subst hu
          rw [hx] at h1
          simpa [Ne.symm hj] using h1
        · simp [hu]
  case h_4 x hpc =>
    cases hs
    have hx : r x = .own := (h.own x).mp (by rw [hpc]; rfl)
    refine h.sleeper (x := x) (v := .dropped) ?_ nofun ?_ ?_ ?_ rfl rfl
      (h.low x (by rw [hx]; exact nofun)) nofun nofun
    · rw [hpc]
      exact fun u hu => (Option.some.inj hu).symm
    · intro u
      by_cases hu : u = x
      · rw [if_pos hu, hu, h.taken, hx]
        rfl
      · rw [if_neg hu]
    · intro u
      dsimp only [bump]
      by_cases hu : u = x
      · rw [if_pos hu, if_pos hu, hu, h.drops, hx]
        rfl
      · rw [if_neg hu, if_neg hu]
    · intro j u
      by_cases hu : u = x
      · rw [if_pos hu, hu, h.entry, hx]
        rfl
      · rw [if_neg hu]
  case h_5 hpc =>
    split at hs
    case isTrue => cases hs
    case isFalse =>
      cases hs
      exact hmove rfl rfl rfl rfl (by rw [hpc]; rfl) nofun nofun
  case h_8 hpc =>
    split at hs
    case isTrue => cases hs
    case isFalse =>
      cases hs
      exact hmove rfl rfl rfl rfl (by rw [hpc]; rfl) nofun nofun
  case h_13 => cases hs
  all_goals
    rename_i hpc
    cases hs
    exact hmove rfl rfl rfl rfl (by rw [hpc]; rfl) nofun nofun

/-- A step of a hub that keeps its entries. -/
theorem Refs.setHub (h : Refs s r)
    (hhubs : t.hubs = fun j => if j = k then w else s.hubs j)
    (hall : ∀ u, entries w.all u = entries (s.hubs k).all u) (htaken : t.taken = s.taken)
    (hdrops : t.drops = s.drops) (hpc : t.pc = s.pc) (hticket : s.ticket ≤ t.ticket)
    (hloaded : ∀ j io x, s.pc = .loaded j io x → t.ticket = s.ticket) : ∃ g, Refs t g := by
  refine ⟨r, h.move htaken hdrops ?_ (by rw [hpc]) hticket ?_ ?_⟩
  · intro j u
    rw [hhubs]
    by_cases hj : j = k
    · simp only [hj, if_true]
      exact hall u
    · simp only [if_neg hj]
  · intro j io x hx
    rw [hpc] at hx
    rw [hloaded j io x hx]
    exact h.loaded j io x hx
  · intro j io x hx
    rw [hpc] at hx
    obtain ⟨hn, hle⟩ := h.stored j io x hx
    exact ⟨hn, Nat.le_trans hle hticket⟩

theorem hubStep_refs (hc : Claims s f)
    (h : Refs s r) (hs : hubStep s k = some t) : ∃ g, Refs t g := by
  unfold hubStep at hs
  dsimp only at hs
  split at hs
  case h_1 => cases hs
  case h_2 e hpc =>
    have hall : ∀ p : HubPc, p.hand = [e] → ∀ u,
        entries (Hub.all { s.hubs k with pc := p }) u = entries (s.hubs k).all u := by
      intro p hp u
      rw [Hub.all, Hub.all, hpc, hp]
      rfl
    split at hs
    case isTrue hcas =>
      have hmem : e ∈ (s.hubs k).all := by simp [Hub.all, hpc, HubPc.hand]
      obtain ⟨hwaits, -⟩ := hc.unclaimed hcas (hc.entry k e hmem)
      cases hs
      refine h.setHub rfl (hall _ rfl) rfl rfl rfl ?_ ?_
      · dsimp only
        rw [lor_one]
        omega
      · intro j io x hx
        rw [hx] at hwaits
        cases hwaits
    case isFalse =>
      cases hs
      exact h.setHub rfl (hall _ rfl) rfl rfl rfl (Nat.le_refl _) (fun _ _ _ _ => rfl)
  case h_3 e hpc =>
    cases hs
    refine h.setHub rfl ?_ rfl rfl rfl (Nat.le_refl _) (fun _ _ _ _ => rfl)
    simp [Hub.all, hpc, HubPc.hand]
  case h_4 e hpc =>
    cases hs
    refine h.drop (k := k) (x := e.ticket) rfl rfl ?_ ?_ rfl rfl
    · intro u
      simp [State.setHub, Hub.all, hpc, HubPc.hand]
    · intro j hj
      simp [State.setHub, hj]
  case h_5 kept dead hpc =>
    cases hs
    refine h.setHub rfl ?_ rfl rfl rfl (Nat.le_refl _) (fun _ _ _ _ => rfl)
    intro u
    simp only [Hub.all, hpc, HubPc.hand, entries_append, entries_nil]
    omega
  case h_6 e todo kept dead hpc =>
    split at hs
    all_goals
      cases hs
      refine h.setHub rfl ?_ rfl rfl rfl (Nat.le_refl _) (fun _ _ _ _ => rfl)
      intro u
      simp only [Hub.all, hpc, HubPc.hand, entries_append, entries_cons, entries_nil]
      omega
  case h_7 hpc =>
    cases hs
    refine h.setHub rfl ?_ rfl rfl rfl (Nat.le_refl _) (fun _ _ _ _ => rfl)
    simp [Hub.all, hpc, HubPc.hand]
  case h_8 e dead hpc =>
    cases hs
    refine h.drop (k := k) (x := e.ticket) rfl rfl ?_ ?_ rfl rfl
    · intro u
      simp only [State.setHub, Hub.all, hpc, HubPc.hand, if_true, entries_append, entries_cons]
      omega
    · intro j hj
      simp [State.setHub, hj]

theorem mainStep_refs (hc : Claims s f)
    (h : Refs s r) (hs : mainStep s = some t) : ∃ g, Refs t g := by
  have hmove : ∀ {u : State}, u.taken = s.taken → u.drops = s.drops → u.hubs = s.hubs →
      u.ticket = s.ticket → u.pc = s.pc → ∃ g, Refs u g := by
    intro u h1 h2 h3 h4 h5
    refine ⟨r, h.move h1 h2 (by rw [h3]; exact fun _ _ => rfl) (by rw [h5])
      (Nat.le_of_eq h4.symm) ?_ ?_⟩
    · rw [h4, h5]
      exact h.loaded
    · rw [h4, h5]
      exact h.stored
  unfold mainStep at hs
  split at hs
  case h_1 => cases hs
  case h_2 =>
    split at hs
    case h_1 =>
      split at hs
      all_goals
        cases hs
        exact hmove rfl rfl rfl rfl rfl
    case h_2 =>
      cases hs
      exact hmove rfl rfl rfl rfl rfl
  case h_3 =>
    cases hs
    exact hmove rfl rfl rfl rfl rfl
  case h_4 k x hmain =>
    split at hs
    case isTrue hcas =>
      obtain ⟨hwaits, -⟩ := hc.unclaimed hcas (hc.target x (by rw [hmain]; rfl))
      cases hs
      have hle : s.ticket ≤ x ||| 1 := by
        rw [lor_one]
        omega
      refine ⟨r, h.move rfl rfl (fun _ _ => rfl) rfl hle ?_ ?_⟩
      · intro j io y hy
        rw [show s.pc = _ from hy] at hwaits
        cases hwaits
      · intro j io y hy
        obtain ⟨hn, hy'⟩ := h.stored j io y hy
        exact ⟨hn, Nat.le_trans hy' hle⟩
    case isFalse =>
      cases hs
      exact hmove rfl rfl rfl rfl rfl
  case h_5 =>
    cases hs
    exact hmove rfl rfl rfl rfl rfl
  case h_6 =>
    cases hs
    exact h.setHub rfl (fun _ => rfl) rfl rfl rfl (Nat.le_refl _) (fun _ _ _ _ => rfl)
  case h_7 =>
    cases hs
    exact hmove rfl rfl rfl rfl rfl

/-- **Step lemma** for the references. -/
theorem step_refs {a : Action} (hc : ∃ f, Claims s f) (h : ∃ r, Refs s r)
    (hs : step s a = some t) : ∃ r, Refs t r := by
  obtain ⟨f, hc⟩ := hc
  obtain ⟨r, h⟩ := h
  cases a with
  | start k io =>
    dsimp only [step] at hs
    split at hs
    case h_1 hpc =>
      cases hs
      refine ⟨r, h.move rfl rfl (fun _ _ => rfl) (by rw [hpc]; rfl) (Nat.le_refl _) ?_ (by intros; contradiction)⟩
      intro j io' x hx
      cases hx
      dsimp only
      rw [lor_one]
      omega
    case h_2 => cases hs
  | sleeper => exact sleeperStep_refs h hs
  | nomem =>
    dsimp only [step] at hs
    split at hs
    case h_1 hpc =>
      cases hs
      exact ⟨r, h.move rfl rfl (fun _ _ => rfl) (by rw [hpc]; rfl) (Nat.le_refl _) (by intros; contradiction) (by intros; contradiction)⟩
    case h_2 => cases hs
  | resume y =>
    dsimp only [step] at hs
    split at hs
    case h_1 hpc =>
      split at hs
      case isTrue =>
        cases hs
        exact ⟨r, h.move rfl rfl (fun _ _ => rfl) (by rw [hpc]; rfl) (Nat.le_refl _) (by intros; contradiction) (by intros; contradiction)⟩
      case isFalse => cases hs
    case h_2 => cases hs
  | pop k e =>
    dsimp only [step] at hs
    split at hs
    case isTrue hk =>
      cases hs
      refine h.setHub rfl ?_ rfl rfl rfl (Nat.le_refl _) (fun _ _ _ _ => rfl)
      intro u
      have := entries_erase hk.2 u
      simp only [Hub.all, hk.1, HubPc.hand, entries_append, entries_cons, entries_nil]
      omega
    case isFalse => cases hs
  | purge k =>
    dsimp only [step] at hs
    split at hs
    case isTrue hk =>
      cases hs
      refine h.setHub rfl ?_ rfl rfl rfl (Nat.le_refl _) (fun _ _ _ _ => rfl)
      intro u
      simp [Hub.all, hk.1, HubPc.hand]
    case isFalse => cases hs
  | hub k => exact hubStep_refs hc h hs
  | signal exc =>
    dsimp only [step] at hs
    split at hs
    case h_1 =>
      cases hs
      exact ⟨r, h.move rfl rfl (fun _ _ => rfl) rfl (Nat.le_refl _) h.loaded h.stored⟩
    case h_2 => cases hs
  | main => exact mainStep_refs hc h hs
  | reserve k exc =>
    dsimp only [step] at hs
    split at hs
    case isTrue =>
      cases hs
      exact ⟨r, h.move rfl rfl (fun _ _ => rfl) rfl (Nat.le_refl _) h.loaded h.stored⟩
    case isFalse => cases hs
  | clear k =>
    dsimp only [step] at hs
    split at hs
    case h_1 =>
      cases hs
      exact ⟨r, h.move rfl rfl (fun _ _ => rfl) rfl (Nat.le_refl _) h.loaded h.stored⟩
    case h_2 => cases hs

/-! ## Delivery -/

/-- The sleeper has its node on the list. -/
def Pc.links : Pc → Option (ℕ × ℕ)
  | .linked h t | .parked h true t | .resumed h true t => some (h, t)
  | _ => none

/-- `o` is the exception that was marked and not taken, with its hub and sleep. -/
structure Delivery (s : State) (o : Option (ℕ × ℕ × ℕ)) : Prop where
  node : ∀ n, s.node = some n → s.pc.links = some (n.hub, n.ticket)
  links : s.pc.links ≠ none → s.node ≠ none
  reserved : ∀ e h t, s.main = .reserved e h t →
    s.node = some ⟨h, t, false⟩ ∧ s.slot h = some ⟨true, e⟩
  owed : ∀ h t e, o = some (h, t, e) → s.slot h = some ⟨true, e⟩ ∧
    (s.node = some ⟨h, t, true⟩ ∨ s.pc = .unlinked h t true ∨ s.pc = .picked h t (some e))
  marked : ∀ n, s.node = some n → n.signaled = true → ∃ e, o = some (n.hub, n.ticket, e)
  unlinked : ∀ h t, s.pc = .unlinked h t true → ∃ e, o = some (h, t, e)
  picked : ∀ h t x, s.pc = .picked h t x → ∃ e, x = some e ∧ o = some (h, t, e)
  mine : ∀ h e, s.slot h = some ⟨true, e⟩ →
    (∃ t, o = some (h, t, e)) ∨ ∃ t, s.main = .reserved e h t
  log : s.sent = s.got ++ (o.map fun p => (p.2.1, p.2.2)).toList

/-- A step that touches neither the node, the slots nor the marks. -/
theorem Delivery.move (h : Delivery s o)
    (hnode : t.node = s.node) (hslot : t.slot = s.slot) (hsent : t.sent = s.sent)
    (hgot : t.got = s.got) (hlinks : t.pc.links = s.pc.links)
    (hunlinked : ∀ k x, t.pc = .unlinked k x true ↔ s.pc = .unlinked k x true)
    (hpicked : ∀ k x y, t.pc = .picked k x y ↔ s.pc = .picked k x y)
    (hmain : ∀ e k x, t.main = .reserved e k x ↔ s.main = .reserved e k x) : Delivery t o := by
  constructor
  case node => rw [hnode, hlinks]; exact h.node
  case links => rw [hnode, hlinks]; exact h.links
  case reserved =>
    intro e k x hr
    rw [hnode, hslot]
    exact h.reserved e k x ((hmain e k x).mp hr)
  case owed =>
    intro k x e ho
    rw [hnode, hslot, hunlinked, hpicked]
    exact h.owed k x e ho
  case marked => rw [hnode]; exact h.marked
  case unlinked => exact fun k x hx => h.unlinked k x ((hunlinked k x).mp hx)
  case picked => exact fun k x y hx => h.picked k x y ((hpicked k x y).mp hx)
  case mine =>
    intro k e hk
    rw [hslot] at hk
    exact (h.mine k e hk).imp_right fun ⟨x, hx⟩ => ⟨x, (hmain e k x).mpr hx⟩
  case log => rw [hsent, hgot]; exact h.log

/-- A program point without a node and without an exception in hand. -/
def Pc.plain (p : Pc) : Prop :=
  p.links = none ∧ (∀ k x, p ≠ .unlinked k x true) ∧ ∀ k x y, p ≠ .picked k x y

theorem Delivery.plain (h : Delivery s o)
    (hpc : s.pc.plain) (hpc' : t.pc.plain) (hnode : t.node = s.node) (hslot : t.slot = s.slot)
    (hsent : t.sent = s.sent) (hgot : t.got = s.got) (hmain : t.main = s.main) :
    Delivery t o := by
  refine h.move hnode hslot hsent hgot (hpc'.1.trans hpc.1.symm) ?_ ?_ (by rw [hmain]; simp)
  · exact fun k x => ⟨fun he => absurd he (hpc'.2.1 k x), fun he => absurd he (hpc.2.1 k x)⟩
  · exact fun k x y => ⟨fun he => absurd he (hpc'.2.2 k x y), fun he => absurd he (hpc.2.2 k x y)⟩

/-- Without a mark on the way nothing is owed. -/
theorem Delivery.none_of (h : Delivery s o)
    (hnode : ∀ n, s.node = some n → n.signaled = false)
    (hunlinked : ∀ k x, s.pc ≠ .unlinked k x true) (hpicked : ∀ k x y, s.pc ≠ .picked k x y) :
    o = none := by
  by_contra hne
  obtain ⟨⟨k, x, e⟩, ho⟩ := Option.ne_none_iff_exists'.mp hne
  rcases (h.owed k x e ho).2 with hn | hp | hp
  · cases hnode _ hn
  · exact hunlinked k x hp
  · exact hpicked k x _ hp

theorem Delivery.node_none (h : Delivery s o)
    (hpc : s.pc.links = none) : s.node = none := by
  by_contra hne
  obtain ⟨n, hn⟩ := Option.ne_none_iff_exists'.mp hne
  rw [h.node n hn] at hpc
  cases hpc

/-- The main thread is not between the reservation and the mark. -/
theorem not_reserved {m : Main} (hm : m.holds ≠ true) (e k x : ℕ) : m ≠ .reserved e k x := by
  rintro rfl
  exact hm rfl

theorem sleeperStep_delivery (h : Delivery s o)
    (hs : sleeperStep s = some t) : ∃ o', Delivery t o' := by
  unfold sleeperStep at hs
  split at hs
  case h_1 hpc =>
    cases hs
    exact ⟨o, h.plain (by rw [hpc]; exact ⟨rfl, nofun, nofun⟩) ⟨rfl, nofun, nofun⟩ rfl rfl rfl rfl rfl⟩
  case h_2 hpc =>
    cases hs
    exact ⟨o, h.plain (by rw [hpc]; exact ⟨rfl, nofun, nofun⟩) ⟨rfl, nofun, nofun⟩ rfl rfl rfl rfl rfl⟩
  case h_3 hpc =>
    cases hs
    exact ⟨o, h.plain (by rw [hpc]; exact ⟨rfl, nofun, nofun⟩) ⟨rfl, nofun, nofun⟩ rfl rfl rfl rfl rfl⟩
  case h_4 hpc =>
    cases hs
    exact ⟨o, h.plain (by rw [hpc]; exact ⟨rfl, nofun, nofun⟩) ⟨rfl, nofun, nofun⟩ rfl rfl rfl rfl rfl⟩
  case h_5 k x hpc =>
    split at hs
    case isTrue => cases hs
    case isFalse hlock =>
      cases hs
      have hn := h.node_none (by rw [hpc]; rfl)
      have ho : o = none := by
        refine h.none_of (by rw [hn]; exact (by intros; contradiction)) ?_ ?_
        all_goals
          rw [hpc]
          exact nofun
      subst ho
      refine ⟨none, ?_, fun _ => nofun, ?_, nofun, ?_, nofun, nofun, h.mine, h.log⟩
      · intro n hn'
        cases hn'
        rfl
      · intro e j y hm
        exact absurd hm (not_reserved hlock e j y)
      · intro n hn' hsig
        cases hn'
        cases hsig
  case h_6 hpc =>
    cases hs
    exact ⟨o, h.plain (by rw [hpc]; exact ⟨rfl, nofun, nofun⟩) ⟨rfl, nofun, nofun⟩ rfl rfl rfl rfl rfl⟩
  case h_7 k x hpc =>
    cases hs
    refine ⟨o, h.move rfl rfl rfl rfl (by rw [hpc]; rfl) ?_ ?_ (fun _ _ _ => Iff.rfl)⟩
    · rw [hpc]
      exact fun _ _ => ⟨(by intros; contradiction), (by intros; contradiction)⟩
    · rw [hpc]
      exact fun _ _ _ => ⟨(by intros; contradiction), (by intros; contradiction)⟩
  case h_8 k x hpc =>
    split at hs
    case isTrue => cases hs
    case isFalse hlock =>
      cases hs
      obtain ⟨n, hn⟩ := Option.ne_none_iff_exists'.mp (h.links (by rw [hpc]; exact nofun))
      have hlinks := h.node n hn
      rw [hpc] at hlinks
      obtain ⟨rfl, rfl⟩ := Prod.mk.inj (Option.some.inj hlinks)
      refine ⟨o, (by intros; contradiction), fun hl => absurd rfl hl, ?_, ?_, (by intros; contradiction), ?_, (by intros; contradiction), h.mine, h.log⟩
      · intro e j y hm
        exact absurd hm (not_reserved hlock e j y)
      · intro j y e ho
        obtain ⟨hslot, hor⟩ := h.owed j y e ho
        refine ⟨hslot, .inr (.inl ?_)⟩
        rcases hor with hm | hm | hm
        · rw [hn] at hm
          cases hm
          dsimp only
          rw [hn]
          rfl
        · rw [hpc] at hm
          cases hm
        · rw [hpc] at hm
          cases hm
      · intro j y hu
        dsimp only at hu
        rw [hn] at hu
        obtain ⟨rfl, rfl, hsig⟩ := Pc.unlinked.inj hu
        exact h.marked n hn hsig
  case h_9 hpc =>
    cases hs
    exact ⟨o, h.plain (by rw [hpc]; exact ⟨rfl, nofun, nofun⟩) ⟨rfl, nofun, nofun⟩ rfl rfl rfl rfl rfl⟩
  case h_10 k x hpc =>
    cases hs
    obtain ⟨e, ho⟩ := h.unlinked k x hpc
    have hslot := (h.owed k x e ho).1
    have hn := h.node_none (by rw [hpc]; rfl)
    refine ⟨o, ?_, fun hl => absurd rfl hl, h.reserved, ?_, h.marked, (by intros; contradiction), ?_, h.mine, h.log⟩
    · dsimp only
      rw [hn]
      exact (by intros; contradiction)
    · intro j y e' ho'
      rw [ho] at ho'
      cases ho'
      refine ⟨hslot, .inr (.inr ?_)⟩
      dsimp only
      rw [hslot]
      rfl
    · intro j y z hz
      dsimp only at hz
      rw [hslot] at hz
      cases hz
      exact ⟨e, rfl, ho⟩
  case h_11 k x hpc =>
    cases hs
    exact ⟨o, h.plain (by rw [hpc]; exact ⟨rfl, nofun, nofun⟩) ⟨rfl, nofun, nofun⟩ rfl rfl rfl rfl rfl⟩
  case h_12 k x y hpc =>
    cases hs
    obtain ⟨e, rfl, ho⟩ := h.picked k x y hpc
    subst ho
    have hn := h.node_none (by rw [hpc]; rfl)
    refine ⟨none, ?_, fun hl => absurd rfl hl, ?_, (by intros; contradiction), ?_, (by intros; contradiction), (by intros; contradiction), ?_, ?_⟩
    · exact fun n hn' => by
        rw [show s.node = some n from hn'] at hn
        cases hn
    · intro e' j z hm
      have := (h.reserved e' j z hm).1
      rw [hn] at this
      cases this
    · exact fun n hn' => by
        rw [show s.node = some n from hn'] at hn
        cases hn
    · intro j e' hj
      by_cases hjk : j = k
      · simp [State.setSlot, hjk] at hj
      · simp only [State.setSlot, if_neg hjk] at hj
        refine (h.mine j e' hj).imp_left fun ⟨z, hz⟩ => ?_
        cases hz
        exact absurd rfl hjk
    · simpa [State.setSlot] using h.log
  case h_13 => cases hs

theorem mainStep_delivery (h : Delivery s o)
    (hs : mainStep s = some t) : ∃ o', Delivery t o' := by
  have hmove : ∀ {u : State}, u.node = s.node → u.slot = s.slot → u.sent = s.sent →
      u.got = s.got → u.pc = s.pc → (∀ e k x, s.main ≠ .reserved e k x) →
      (∀ e k x, u.main ≠ .reserved e k x) → ∃ o', Delivery u o' := by
    intro u h1 h2 h3 h4 h5 h6 h7
    refine ⟨o, h.move h1 h2 h3 h4 (by rw [h5]) (by simp [h5]) (by simp [h5]) ?_⟩
    exact fun e k x => ⟨fun he => absurd he (h7 e k x), fun he => absurd he (h6 e k x)⟩
  unfold mainStep at hs
  split at hs
  case h_1 => cases hs
  case h_2 exc hmain =>
    have hnr : ∀ e k x, s.main ≠ .reserved e k x := by
      rw [hmain]
      exact nofun
    split at hs
    case h_1 n hn =>
      split at hs
      case isTrue hfree =>
        cases hs
        refine ⟨o, h.node, h.links, ?_, ?_, h.marked, h.unlinked, h.picked, ?_, h.log⟩
        · intro e k x hm
          obtain ⟨rfl, rfl, rfl⟩ := Main.reserved.inj hm
          refine ⟨?_, by simp [State.setSlot]⟩
          rw [← hfree.1]
          exact hn
        · intro k x e ho
          obtain ⟨hslot, hor⟩ := h.owed k x e ho
          refine ⟨?_, hor⟩
          have hk : k ≠ n.hub := by
            rintro rfl
            rw [hfree.2] at hslot
            cases hslot
          simpa [State.setSlot, hk] using hslot
        · intro k e hk
          by_cases hkn : k = n.hub
          · subst hkn
            simp only [State.setSlot, if_true, Option.some.injEq, Cell.mk.injEq, true_and] at hk
            exact .inr ⟨n.ticket, by rw [hk]⟩
          · simp only [State.setSlot, if_neg hkn] at hk
            refine .inl ((h.mine k e hk).resolve_right fun ⟨x, hx⟩ => hnr e k x hx)
      case isFalse =>
        cases hs
        exact hmove rfl rfl rfl rfl rfl hnr nofun
    case h_2 =>
      cases hs
      exact hmove rfl rfl rfl rfl rfl hnr nofun
  case h_3 exc k x hmain =>
    cases hs
    obtain ⟨hn, hslot⟩ := h.reserved exc k x hmain
    have hlinks := h.node _ hn
    have ho : o = none := by
      refine h.none_of ?_ ?_ ?_
      · intro n hn'
        rw [hn] at hn'
        cases hn'
        rfl
      · intro j y hp
        rw [hp] at hlinks
        cases hlinks
      · intro j y z hp
        rw [hp] at hlinks
        cases hlinks
    subst ho
    have hlog := h.log
    refine ⟨some (k, x, exc), ?_, ?_, (by intros; contradiction), ?_, ?_, ?_, ?_, ?_, ?_⟩
    · intro n hn'
      dsimp only at hn'
      rw [hn] at hn'
      cases hn'
      exact hlinks
    · intro _
      dsimp only
      rw [hn]
      exact nofun
    · intro j y e he
      cases he
      refine ⟨hslot, .inl ?_⟩
      dsimp only
      rw [hn]
      rfl
    · intro n hn' _
      dsimp only at hn'
      rw [hn] at hn'
      cases hn'
      exact ⟨exc, rfl⟩
    · intro j y hp
      rw [show s.pc = _ from hp] at hlinks
      cases hlinks
    · intro j y z hp
      rw [show s.pc = _ from hp] at hlinks
      cases hlinks
    · intro j e hj
      left
      rcases h.mine j e hj with ⟨y, hy⟩ | ⟨y, hy⟩
      · cases hy
      · rw [hmain] at hy
        cases hy
        exact ⟨x, rfl⟩
    · dsimp only
      rw [hlog]
      simp
  case h_4 hmain =>
    have hnr : ∀ e k x, s.main ≠ .reserved e k x := by
      rw [hmain]
      exact nofun
    split at hs
    all_goals
      cases hs
      exact hmove rfl rfl rfl rfl rfl hnr nofun
  case h_5 k x ok hmain =>
    cases hs
    refine hmove rfl rfl rfl rfl rfl ?_ ?_
    · rw [hmain]
      exact nofun
    · cases ok
      all_goals exact nofun
  case h_6 hmain =>
    cases hs
    refine hmove rfl rfl rfl rfl rfl ?_ nofun
    rw [hmain]
    exact nofun
  case h_7 hmain =>
    cases hs
    refine hmove rfl rfl rfl rfl rfl ?_ nofun
    rw [hmain]
    exact nofun

theorem hubStep_delivery (h : Delivery s o)
    (hs : hubStep s k = some t) : ∃ o', Delivery t o' := by
  have hkeep : ∀ {u : State}, u.node = s.node → u.slot = s.slot → u.sent = s.sent →
      u.got = s.got → u.pc = s.pc → u.main = s.main → ∃ o', Delivery u o' := by
    intro u h1 h2 h3 h4 h5 h6
    exact ⟨o, h.move h1 h2 h3 h4 (by rw [h5]) (by simp [h5]) (by simp [h5]) (by simp [h6])⟩
  unfold hubStep at hs
  dsimp only at hs
  split at hs
  case h_1 => cases hs
  case h_2 =>
    split at hs
    all_goals
      cases hs
      exact hkeep rfl rfl rfl rfl rfl rfl
  case h_6 =>
    split at hs
    all_goals
      cases hs
      exact hkeep rfl rfl rfl rfl rfl rfl
  all_goals
    cases hs
    exact hkeep rfl rfl rfl rfl rfl rfl

/-- Another recipient's reservation or pickup leaves this g's alone. -/
theorem Delivery.setSlot (h : Delivery s o)
    {c : Option Cell} (hslot : t.slot = fun j => if j = k then c else s.slot j)
    (hold : ∀ e, s.slot k ≠ some ⟨true, e⟩) (hnew : ∀ e, c ≠ some ⟨true, e⟩)
    (hnode : t.node = s.node) (hpc : t.pc = s.pc) (hmain : t.main = s.main)
    (hsent : t.sent = s.sent) (hgot : t.got = s.got) : Delivery t o := by
  have hsame : ∀ j e, t.slot j = some ⟨true, e⟩ ↔ s.slot j = some ⟨true, e⟩ := by
    intro j e
    rw [hslot]
    by_cases hj : j = k
    · simp only [hj, if_true]
      exact ⟨fun he => absurd he (hnew e), fun he => absurd he (hold e)⟩
    · simp only [if_neg hj]
  constructor
  case node => rw [hnode, hpc]; exact h.node
  case links => rw [hnode, hpc]; exact h.links
  case reserved =>
    rw [hnode, hmain]
    intro e j x hm
    obtain ⟨hn, hs⟩ := h.reserved e j x hm
    exact ⟨hn, (hsame j e).mpr hs⟩
  case owed =>
    rw [hnode, hpc]
    intro j x e ho
    obtain ⟨hs, hor⟩ := h.owed j x e ho
    exact ⟨(hsame j e).mpr hs, hor⟩
  case marked => rw [hnode]; exact h.marked
  case unlinked => rw [hpc]; exact h.unlinked
  case picked => rw [hpc]; exact h.picked
  case mine =>
    rw [hmain]
    exact fun j e hj => h.mine j e ((hsame j e).mp hj)
  case log => rw [hsent, hgot]; exact h.log

/-- **Step lemma** for the delivery of signals. -/
theorem step_delivery {a : Action} (h : ∃ o, Delivery s o)
    (hs : step s a = some t) : ∃ o, Delivery t o := by
  obtain ⟨o, h⟩ := h
  cases a with
  | start k io =>
    dsimp only [step] at hs
    split at hs
    case h_1 hpc =>
      cases hs
      exact ⟨o, h.plain (by rw [hpc]; exact ⟨rfl, nofun, nofun⟩) ⟨rfl, nofun, nofun⟩
        rfl rfl rfl rfl rfl⟩
    case h_2 => cases hs
  | sleeper => exact sleeperStep_delivery h hs
  | nomem =>
    dsimp only [step] at hs
    split at hs
    case h_1 hpc =>
      cases hs
      exact ⟨o, h.plain (by rw [hpc]; exact ⟨rfl, nofun, nofun⟩) ⟨rfl, nofun, nofun⟩
        rfl rfl rfl rfl rfl⟩
    case h_2 => cases hs
  | resume y =>
    dsimp only [step] at hs
    split at hs
    case h_1 k io x hpc =>
      split at hs
      case isTrue =>
        cases hs
        refine ⟨o, h.move rfl rfl rfl rfl ?_ ?_ ?_ (fun _ _ _ => Iff.rfl)⟩
        · rw [hpc]
          cases io <;> rfl
        · rw [hpc]
          exact fun _ _ => ⟨(by intros; contradiction), (by intros; contradiction)⟩
        · rw [hpc]
          exact fun _ _ _ => ⟨(by intros; contradiction), (by intros; contradiction)⟩
      case isFalse => cases hs
    case h_2 => cases hs
  | pop k e =>
    dsimp only [step] at hs
    split at hs
    case isTrue =>
      cases hs
      exact ⟨o, h.move rfl rfl rfl rfl rfl (fun _ _ => Iff.rfl) (fun _ _ _ => Iff.rfl)
        (fun _ _ _ => Iff.rfl)⟩
    case isFalse => cases hs
  | purge k =>
    dsimp only [step] at hs
    split at hs
    case isTrue =>
      cases hs
      exact ⟨o, h.move rfl rfl rfl rfl rfl (fun _ _ => Iff.rfl) (fun _ _ _ => Iff.rfl)
        (fun _ _ _ => Iff.rfl)⟩
    case isFalse => cases hs
  | hub k => exact hubStep_delivery h hs
  | signal exc =>
    dsimp only [step] at hs
    split at hs
    case h_1 hmain =>
      cases hs
      refine ⟨o, h.move rfl rfl rfl rfl rfl (fun _ _ => Iff.rfl) (fun _ _ _ => Iff.rfl) ?_⟩
      rw [hmain]
      exact fun _ _ _ => ⟨(by intros; contradiction), (by intros; contradiction)⟩
    case h_2 => cases hs
  | main => exact mainStep_delivery h hs
  | reserve k exc =>
    dsimp only [step] at hs
    split at hs
    case isTrue hfree =>
      cases hs
      refine ⟨o, h.setSlot rfl ?_ nofun rfl rfl rfl rfl rfl⟩
      rw [hfree]
      exact nofun
    case isFalse => cases hs
  | clear k =>
    dsimp only [step] at hs
    split at hs
    case h_1 hslot =>
      cases hs
      refine ⟨o, h.setSlot rfl ?_ nofun rfl rfl rfl rfl rfl⟩
      rw [hslot]
      exact nofun
    case h_2 => cases hs

/-! ## Every run -/

theorem reachable_inv (hr : Reachable system s) :
    (∃ f, Claims s f) ∧ (∃ r, Refs s r) ∧ ∃ o, Delivery s o := by
  refine Reachable.invariant
    (P := fun s => (∃ f, Claims s f) ∧ (∃ r, Refs s r) ∧ ∃ o, Delivery s o) ?_ ?_ hr
  · rintro s rfl
    refine ⟨⟨fun _ => .unclaimed, ?_⟩, ⟨fun _ => .none, ?_⟩, ⟨none, ?_⟩⟩
    · constructor
      case count => exact fun _ => rfl
      case below => exact fun _ h => absurd rfl h
      case turn => exact fun _ h => absurd rfl h
      case waits => exact (by intros; contradiction)
      case entry => exact (by intros; contradiction)
      case node => exact (by intros; contradiction)
      case target => exact (by intros; contradiction)
      case won => exact (by intros; contradiction)
      case pending => exact (by intros; contradiction)
      case queued => exact ⟨List.nodup_nil, (by intros; contradiction)⟩
      case ends => exact ⟨List.nodup_nil, (by intros; contradiction)⟩
      case loaded => exact (by intros; contradiction)
      case fresh => rintro h io t (hp | hp) <;> cases hp
    · constructor
      case taken => exact fun _ => rfl
      case drops => exact fun _ => rfl
      case entry => exact fun _ _ => rfl
      case own => exact fun _ => ⟨(by intros; contradiction), (by intros; contradiction)⟩
      case low => exact fun _ h => absurd rfl h
      case loaded => exact (by intros; contradiction)
      case stored => exact (by intros; contradiction)
    · exact ⟨(by intros; contradiction), fun h => absurd rfl h, (by intros; contradiction), (by intros; contradiction), (by intros; contradiction), (by intros; contradiction), (by intros; contradiction), (by intros; contradiction), rfl⟩
  · rintro s a t _ ⟨hc, hf, hd⟩ hs
    exact ⟨step_claims hc hs, step_refs hc hf hs, step_delivery hd hs⟩

/-- What the tickets are for. -/
structure Ticketed (s : State) : Prop where
  /-- a sleep is claimed by one pop or by one signal -/
  claimed : ∀ t, s.byPop t + s.bySignal t ≤ 1
  /-- a sleep ends once, by the wake that its own claimer sent -/
  ended : ∀ p ∈ s.ends, p.2 = p.1 ∧ s.byPop p.1 + s.bySignal p.1 = 1
  once : (s.ends.map Prod.fst).Nodup
  taken : ∀ t, s.taken t ≤ 1
  /-- a reference has been dropped, once, or its entry is still with a hub (or,
  before the push, with the sleeper) -/
  refs : ∀ t, s.taken t = 1 →
    s.drops t = 1 ∧ (∀ h, s.held h t = 0) ∨ s.drops t = 0 ∧ ∃ h, s.held h t = 1
  untaken : ∀ t, s.taken t = 0 → s.drops t = 0 ∧ ∀ h, s.held h t = 0
  /-- when the sleep call has returned, the exceptions marked for its sleeps have
  been taken, and no slot is reserved for it -/
  delivered : s.pc = .idle → s.got = s.sent ∧ ∀ h e, s.slot h ≠ some ⟨true, e⟩

theorem Refs.held (h : Refs s r) (k t : ℕ) :
    s.held k t = (if r t = .on k then 1 else 0) + if r t = .own then 1 else 0 := by
  rw [State.held]
  congr 1
  · exact h.entry k t
  · simp only [h.own t]

/-- **Sleep tickets.** -/
theorem reachable_ticketed {s : State} (hr : Reachable system s) : Ticketed s := by
  obtain ⟨⟨f, hc⟩, ⟨r, hf⟩, ⟨o, hd⟩⟩ := reachable_inv hr
  constructor
  case claimed =>
    intro t
    rw [hc.count]
    split <;> omega
  case ended =>
    intro p hp
    obtain ⟨heq, hend⟩ := hc.ends.2 p hp
    rw [hc.count, hend]
    exact ⟨heq, rfl⟩
  case once => exact hc.ends.1
  case taken =>
    intro t
    rw [hf.taken]
    split <;> omega
  case refs =>
    intro t ht
    rw [hf.taken] at ht
    rw [hf.drops]
    simp only [hf.held]
    cases hrt : r t with
    | none =>
      rw [hrt] at ht
      cases ht
    | own => exact .inr ⟨rfl, 0, rfl⟩
    | on k => exact .inr ⟨rfl, k, by simp⟩
    | dropped => exact .inl ⟨rfl, fun _ => rfl⟩
  case untaken =>
    intro t ht
    rw [hf.taken] at ht
    have hn : r t = .none := by
      by_contra hne
      rw [if_neg hne] at ht
      cases ht
    rw [hf.drops, hn]
    simp only [hf.held, hn]
    exact ⟨rfl, fun _ => rfl⟩
  case delivered =>
    intro hpc
    have hnode := hd.node_none (by rw [hpc]; rfl)
    have ho : o = none := by
      refine hd.none_of (by rw [hnode]; exact (by intros; contradiction)) ?_ ?_
      all_goals
        rw [hpc]
        exact nofun
    subst ho
    refine ⟨?_, fun k e hk => ?_⟩
    · simpa using hd.log.symm
    · rcases hd.mine k e hk with ⟨x, hx⟩ | ⟨x, hx⟩
      · cases hx
      · have := (hd.reserved e k x hx).1
        rw [hnode] at this
        cases this

/-- A sleep on hub 0 that a signal claims, and the next sleep, on hub 1, that the
timer ends; hub 0 then purges the entry of the first. -/
theorem reachable_ticketed_signaled : ∃ s, Reachable system s ∧ Ticketed s ∧
    s.ends = [(2, 2), (4, 4)] ∧ s.got = [(2, 9)] ∧ s.bySignal 2 = 1 ∧ s.byPop 4 = 1 ∧
    s.drops 2 = 1 ∧ s.drops 4 = 1 := by
  have hr := reachable_of_run system
    (.flatten [[.start 0 true], .replicate 5 .sleeper, [.signal 9], .replicate 6 .main, [.resume 2],
      .replicate 3 .sleeper, [.start 1 false], .replicate 4 .sleeper, [.pop 1 ⟨4, false⟩, .hub 1,
      .hub 1, .resume 4, .sleeper, .hub 1, .purge 0], .replicate 4 (.hub 0)]) rfl rfl
  exact ⟨_, hr, reachable_ticketed hr, rfl, rfl, rfl, rfl, rfl, rfl⟩

end Stackweave.Sleep
