import Mathlib.Data.List.Nodup
import Mathlib.Logic.Function.Basic
import Mathlib.Logic.Relation
import Mathlib.Tactic.Common
import Stackweave.Transition

/-!
# Cancellation of a tree of contexts (`_CancelCtx`, `context.py`)

Contexts are numbered in the order of their construction, and any number of fibers
construct and cancel them. Each locked section is one step. What a call has still to
do is a stack of tasks: `_cancel` fans out depth first, after it has dropped the lock.
-/

namespace Stackweave.Context

open Transition Function

inductive Reason
  | cancelled
  | deadlineExceeded

/-- What a call goes on with: the locked section of `__init__`, of `_cancel` or of
`_remove_child`. -/
inductive Todo
  | register (c : ℕ)
  | cancel (c : ℕ) (reason : Reason) (removeFromParent : Bool)
  | removeChild (c : ℕ)

/-- `parent` is `none` for a child of `Background`. `registered` says that `__init__` is
past its locked section; `sets` counts the writes of a reason to `_err`. -/
structure State where
  next : ℕ
  parent : ℕ → Option ℕ
  registered : ℕ → Bool
  err : ℕ → Option Reason
  done : ℕ → Bool
  children : ℕ → List ℕ
  calls : ℕ → List Todo
  sets : ℕ → ℕ

def init : State :=
  { next := 0, parent := fun _ => none, registered := fun _ => false, err := fun _ => none
    done := fun _ => false, children := fun _ => [], calls := fun _ => [], sets := fun _ => 0 }

def State.goOn (s : State) (f : ℕ) (tasks : List Todo) : State :=
  { s with calls := Function.update s.calls f tasks }

/-- The locked section of `__init__`, and the cancellation by a cancelled parent. -/
def State.register (s : State) (f c : ℕ) (rest : List Todo) : State :=
  let t := { s with registered := Function.update s.registered c true }
  match s.parent c with
  | none => t.goOn f rest
  | some p =>
    match s.err p with
    | none => { t with children := Function.update s.children p (s.children p ++ [c]) }.goOn f rest
    | some already => t.goOn f (.cancel c already false :: rest)

/-- The locked section of `_cancel`, and what it leaves to do. -/
def State.cancel (s : State) (f c : ℕ) (reason : Reason) (removeFromParent : Bool)
    (rest : List Todo) : State :=
  match s.err c with
  | some _ => s.goOn f rest
  | none =>
    { s with
      err := Function.update s.err c (some reason)
      done := Function.update s.done c true
      children := Function.update s.children c []
      sets := Function.update s.sets c (s.sets c + 1) }.goOn f
      ((s.children c).map (fun x => Todo.cancel x reason false) ++
        (if removeFromParent then [Todo.removeChild c] else []) ++ rest)

def State.removeChild (s : State) (f c : ℕ) (rest : List Todo) : State :=
  match s.parent c with
  | none => s.goOn f rest
  | some p =>
    { s with children := Function.update s.children p ((s.children p).erase c) }.goOn f rest

/-- `new` allocates a context, which its constructor then registers; `cancel` is a call of
the returned `cancel()`, or of `_cancel` by `WithDeadline` or by its waker. -/
inductive Action
  | new (f : ℕ) (parent : Option ℕ)
  | cancel (f c : ℕ) (reason : Reason)
  | run (f : ℕ)

def step (s : State) : Action → Option State
  | .new f parent =>
    if s.calls f = [] ∧ parent.all s.registered = true then
      some ({ s with next := s.next + 1, parent := Function.update s.parent s.next parent }.goOn f
        [.register s.next])
    else none
  | .cancel f c reason =>
    if s.calls f = [] ∧ s.registered c = true then some (s.goOn f [.cancel c reason true]) else none
  | .run f =>
    match s.calls f with
    | [] => none
    | .register c :: rest => some (s.register f c rest)
    | .cancel c reason remove :: rest => some (s.cancel f c reason remove rest)
    | .removeChild c :: rest => some (s.removeChild f c rest)

def system : System State Action where
  init s := s = init
  step := step

/-- No call is in progress. -/
def State.Quiet (s : State) : Prop := ∀ f, s.calls f = []

/-- `x` is a descendant of `c`. -/
def State.Descends (s : State) (x c : ℕ) : Prop :=
  Relation.TransGen (fun y p => s.parent y = some p) x c

structure Reached (s : State) : Prop where
  descendants : s.Quiet → ∀ c x, s.err c ≠ none → s.Descends x c →
    s.err x ≠ none ∧ s.done x = true
  detached : s.Quiet → ∀ c p, s.err c ≠ none → s.parent c = some p → c ∉ s.children p
  once : ∀ c, s.sets c = if s.err c = none then 0 else 1
  kept : ∀ as t, system.run s as = some t → ∀ c r, s.err c = some r → t.err c = some r

/-! ## The invariant -/

/-- A call has the task still to do. -/
def State.Pending (s : State) (u : Todo) : Prop := ∃ f, u ∈ s.calls f

/-- The tasks that are about a context in its constructor, about one whose parent is
cancelled, about one that is cancelled. -/
structure Tasks (s : State) : Prop where
  alone : ∀ f c, .register c ∈ s.calls f → s.calls f = [.register c]
  unique : ∀ f g c, .register c ∈ s.calls f → .register c ∈ s.calls g → f = g
  unborn : ∀ c, s.Pending (.register c) → c < s.next ∧ s.registered c = false
  target : ∀ c r b, s.Pending (.cancel c r b) → s.registered c = true
  fanned : ∀ c r, s.Pending (.cancel c r false) → ∃ p, s.parent c = some p ∧ s.err p ≠ none
  removing : ∀ c, s.Pending (.removeChild c) → s.err c ≠ none

structure Tree (s : State) : Prop where
  known : ∀ c, s.registered c = true → c < s.next
  fresh : ∀ c, s.next ≤ c → s.parent c = none
  waiting : ∀ c, c < s.next → s.registered c = false → s.Pending (.register c)
  alive : ∀ c, s.registered c = false → s.err c = none
  above : ∀ c p, s.parent c = some p → s.registered p = true
  kids : ∀ p c, c ∈ s.children p → s.parent c = some p ∧ s.registered c = true
  nodup : ∀ p, (s.children p).Nodup
  cleared : ∀ c, s.err c ≠ none → s.children c = []
  linked : ∀ c p, s.parent c = some p → s.registered c = true → s.err p = none → s.err c = none →
    c ∈ s.children p
  owed : ∀ c p, s.parent c = some p → s.registered c = true → s.err p ≠ none →
    s.err c ≠ none ∨ ∃ r b, s.Pending (.cancel c r b)
  stale : ∀ p c, c ∈ s.children p → s.err c ≠ none → s.Pending (.removeChild c)
  closed : ∀ c, s.done c = true ↔ s.err c ≠ none
  once : ∀ c, s.sets c = if s.err c = none then 0 else 1

structure Inv (s : State) : Prop where
  tasks : Tasks s
  tree : Tree s

theorem inv_init : Inv init where
  tasks := ⟨nofun, nofun, nofun, nofun, nofun, nofun⟩
  tree :=
    { known := (by intros; contradiction), fresh := fun _ _ => rfl, waiting := fun _ h => absurd h (Nat.not_lt_zero _)
      alive := fun _ _ => rfl, above := (by intros; contradiction), kids := (by intros; contradiction), nodup := fun _ => List.nodup_nil
      cleared := fun _ _ => rfl, linked := (by intros; contradiction), owed := (by intros; contradiction), stale := (by intros; contradiction)
      closed := fun _ => ⟨(by intros; contradiction), fun h => absurd rfl h⟩, once := fun _ => rfl }

section Steps

variable {s t : State} {f : ℕ} {u v : Todo} {rest : List Todo} (new : List Todo)

/-! ## The tasks of a call that goes on -/

theorem pending_goOn {new : List Todo} :
    (s.goOn f new).Pending u ↔ u ∈ new ∨ ∃ g, g ≠ f ∧ u ∈ s.calls g := by
  constructor
  · rintro ⟨g, hg⟩
    by_cases h : g = f
    · rw [h] at hg
      exact .inl (by simpa [State.goOn] using hg)
    · exact .inr ⟨g, h, by simpa [State.goOn, h] using hg⟩
  · rintro (h | ⟨g, hg, h⟩)
    · exact ⟨f, by simpa [State.goOn] using h⟩
    · exact ⟨g, by simpa [State.goOn, hg] using h⟩

/-- What is pending afterwards is new or was pending. -/
theorem State.Pending.of_goOn {new : List Todo} (hf : s.calls f = u :: rest)
    (h : (s.goOn f (new ++ rest)).Pending v) :
    v ∈ new ∨ s.Pending v := by
  rcases pending_goOn.mp h with h | ⟨g, -, h⟩
  · rcases List.mem_append.mp h with h | h
    · exact .inl h
    · exact .inr ⟨f, by rw [hf]; exact List.mem_cons_of_mem _ h⟩
  · exact .inr ⟨g, h⟩

/-- What was pending is the task that was done or is pending still. -/
theorem State.Pending.goOn (hf : s.calls f = u :: rest) (h : s.Pending v) (hne : v ≠ u) :
    (s.goOn f (new ++ rest)).Pending v := by
  obtain ⟨g, hg⟩ := h
  by_cases hgf : g = f
  · rw [hgf, hf] at hg
    rcases List.mem_cons.mp hg with hg | hg
    · exact absurd hg hne
    · exact pending_goOn.mpr (.inl (List.mem_append_right _ hg))
  · exact pending_goOn.mpr (.inr ⟨g, hgf, hg⟩)

/-- The tasks that stay, when nothing about them changes. -/
theorem Tasks.goOn (h : Tasks s) (hf : s.calls f = u :: rest)
    (hnext : t.next = s.next) (hcalls : t.calls = update s.calls f (new ++ rest))
    (hparent : t.parent = s.parent) (hreg : ∀ c, s.registered c = true → t.registered c = true)
    (herr : ∀ c, s.err c ≠ none → t.err c ≠ none)
    (hborn : ∀ c, s.registered c = false → .register c ≠ u → t.registered c = false)
    (hfresh : ∀ c, .register c ∉ new)
    (htarget : ∀ c r b, .cancel c r b ∈ new → t.registered c = true)
    (hfanned : ∀ c r, .cancel c r false ∈ new → ∃ p, s.parent c = some p ∧ t.err p ≠ none)
    (hremoving : ∀ c, .removeChild c ∈ new → t.err c ≠ none) : Tasks t := by
  have hold : ∀ v, t.Pending v → v ∈ new ∨ s.Pending v := by
    rintro v ⟨g, hg⟩
    refine State.Pending.of_goOn hf ⟨g, ?_⟩
    simpa [State.goOn, hcalls] using hg
  have hregister : ∀ g c, .register c ∈ t.calls g → g ≠ f ∧ .register c ∈ s.calls g := by
    intro g c hg
    rw [hcalls] at hg
    by_cases hgf : g = f
    · rw [hgf, update_self] at hg
      rcases List.mem_append.mp hg with hg | hg
      · exact absurd hg (hfresh c)
      · -- a registration is alone in its call
        have halone := h.alone f c (by rw [hf]; exact List.mem_cons_of_mem _ hg)
        rw [hf] at halone
        cases halone
        cases hg
    · rw [update_of_ne hgf] at hg
      exact ⟨hgf, hg⟩
  constructor
  case alone =>
    intro g c hg
    obtain ⟨hgf, hg'⟩ := hregister g c hg
    rw [hcalls, update_of_ne hgf]
    exact h.alone g c hg'
  case unique =>
    intro g g' c hg hg'
    exact h.unique g g' c (hregister g c hg).2 (hregister g' c hg').2
  case unborn =>
    rintro c ⟨g, hg⟩
    obtain ⟨hgf, hg'⟩ := hregister g c hg
    obtain ⟨hlt, hb⟩ := h.unborn c ⟨g, hg'⟩
    refine ⟨hnext ▸ hlt, hborn c hb ?_⟩
    rintro rfl
    exact hgf (h.unique g f c hg' (by rw [hf]; exact List.mem_cons_self))
  case target =>
    intro c r b hp
    rcases hold _ hp with hp | hp
    · exact htarget c r b hp
    · exact hreg c (h.target c r b hp)
  case fanned =>
    intro c r hp
    rw [hparent]
    rcases hold _ hp with hp | hp
    · exact hfanned c r hp
    · obtain ⟨p, hpar, hperr⟩ := h.fanned c r hp
      exact ⟨p, hpar, herr p hperr⟩
  case removing =>
    intro c hp
    rcases hold _ hp with hp | hp
    · exact hremoving c hp
    · exact herr c (h.removing c hp)

/-! ## `__init__` -/

variable {c : ℕ} {r : Reason} {b : Bool}

theorem Tree.register {kids : ℕ → List ℕ} (h : Tree s)
    (hf : s.calls f = .register c :: rest) (hlt : c < s.next) (hc : s.registered c = false)
    (hold : ∀ p x, x ∈ s.children p → x ∈ kids p)
    (hnew : ∀ p x, x ∈ kids p → x ∈ s.children p ∨ x = c ∧ s.parent c = some p)
    (hnodup : ∀ p, (kids p).Nodup) (hclear : ∀ p, s.err p ≠ none → kids p = [])
    (hlink : ∀ p, s.parent c = some p → s.err p = none → c ∈ kids p)
    (howed : ∀ p, s.parent c = some p → s.err p ≠ none → ∃ r b, .cancel c r b ∈ new) :
    Tree (State.goOn { s with registered := update s.registered c true
                              children := kids } f (new ++ rest)) := by
  have herr := h.alive c hc
  have hreg : ∀ x, update s.registered c true x = true → x = c ∨ s.registered x = true := by
    intro x hx
    by_cases hxc : x = c
    · exact .inl hxc
    · exact .inr (by simpa [hxc] using hx)
  have hkeep : ∀ x, s.registered x = true → update s.registered c true x = true := by
    intro x hx
    by_cases hxc : x = c
    · simp [hxc]
    · simpa [hxc] using hx
  have hpend : ∀ v, s.Pending v → v ≠ .register c →
      (State.goOn { s with registered := update s.registered c true
                           children := kids } f (new ++ rest)).Pending v :=
    fun v hv hne => State.Pending.goOn new hf hv hne
  constructor
  case known =>
    intro x hx
    rcases hreg x hx with rfl | hx
    · exact hlt
    · exact h.known x hx
  case fresh => exact h.fresh
  case waiting =>
    intro x hx hun
    by_cases hxc : x = c
    · simp [hxc, State.goOn] at hun
    · exact hpend _ (h.waiting x hx (by simpa [State.goOn, hxc] using hun)) (by simpa using hxc)
  case alive =>
    intro x hun
    by_cases hxc : x = c
    · simp [hxc, State.goOn] at hun
    · exact h.alive x (by simpa [State.goOn, hxc] using hun)
  case above => exact fun x p hx => hkeep p (h.above x p hx)
  case kids =>
    intro p x hx
    rcases hnew p x hx with hx | ⟨rfl, hp⟩
    · exact ⟨(h.kids p x hx).1, hkeep x (h.kids p x hx).2⟩
    · exact ⟨hp, update_self _ _ _⟩
  case nodup => exact hnodup
  case cleared => exact hclear
  case linked =>
    intro x p hp hx hperr hxerr
    rcases hreg x hx with rfl | hx
    · exact hlink p hp hperr
    · exact hold p x (h.linked x p hp hx hperr hxerr)
  case owed =>
    intro x p hp hx hperr
    rcases hreg x hx with rfl | hx
    · obtain ⟨r, b, hb⟩ := howed p hp hperr
      exact .inr ⟨r, b, pending_goOn.mpr (.inl (List.mem_append_left _ hb))⟩
    · rcases h.owed x p hp hx hperr with hxerr | ⟨r, b, hb⟩
      · exact .inl hxerr
      · exact .inr ⟨r, b, hpend _ hb nofun⟩
  case stale =>
    intro p x hx hxerr
    rcases hnew p x hx with hx | ⟨rfl, -⟩
    · exact hpend _ (h.stale p x hx hxerr) nofun
    · exact absurd herr hxerr
  case closed => exact h.closed
  case once => exact h.once

theorem register_inv (hi : Inv s) (hf : s.calls f = .register c :: rest) :
    Inv (s.register f c rest) := by
  obtain ⟨hlt, hun⟩ := hi.tasks.unborn c ⟨f, by rw [hf]; exact List.mem_cons_self⟩
  have hkeep : ∀ x, s.registered x = true → update s.registered c true x = true := by
    intro x hx
    by_cases hxc : x = c
    · simp [hxc]
    · simpa [hxc] using hx
  have hborn : ∀ x, s.registered x = false → .register x ≠ Todo.register c →
      update s.registered c true x = false := by
    intro x hx hne
    have hxc : x ≠ c := fun hxc => hne (by rw [hxc])
    simpa [hxc] using hx
  unfold State.register
  dsimp only
  split
  case h_1 hpar =>
    refine ⟨hi.tasks.goOn [] hf rfl rfl rfl hkeep (fun _ he => he) hborn nofun nofun nofun
      nofun, ?_⟩
    exact hi.tree.register [] hf hlt hun (fun _ _ hx => hx) (fun _ _ hx => .inl hx)
      hi.tree.nodup hi.tree.cleared (fun p hp => absurd (hpar.symm.trans hp) nofun)
      fun p hp => absurd (hpar.symm.trans hp) nofun
  case h_2 p hpar =>
    split
    case h_1 hlive =>
      refine ⟨hi.tasks.goOn [] hf rfl rfl rfl hkeep (fun _ he => he) hborn nofun nofun
        nofun nofun, ?_⟩
      have hmem : ∀ q x, x ∈ update s.children p (s.children p ++ [c]) q ↔
          x ∈ s.children q ∨ x = c ∧ q = p := by
        intro q x
        by_cases hq : q = p
        · simp [hq]
        · simp [hq]
      refine hi.tree.register [] hf hlt hun ?_ ?_ ?_ ?_ ?_ ?_
      · exact fun q x hx => (hmem q x).mpr (.inl hx)
      · intro q x hx
        rcases (hmem q x).mp hx with hx | ⟨rfl, rfl⟩
        · exact .inl hx
        · exact .inr ⟨rfl, hpar⟩
      · intro q
        by_cases hq : q = p
        · rw [hq, update_self]
          -- a context is in the list of its parent only once it is registered
          have hnot : c ∉ s.children p := fun hc =>
            absurd (hun.symm.trans (hi.tree.kids p c hc).2) nofun
          refine List.nodup_append.mpr ⟨hi.tree.nodup p, List.nodup_singleton c, ?_⟩
          rintro x hx y hy rfl
          cases List.mem_singleton.mp hy
          exact hnot hx
        · rw [update_of_ne hq]
          exact hi.tree.nodup q
      · intro q hq
        have hqp : q ≠ p := fun he => hq (he ▸ hlive)
        rw [update_of_ne hqp]
        exact hi.tree.cleared q hq
      · intro q hq _
        cases hpar.symm.trans hq
        exact (hmem p c).mpr (.inr ⟨rfl, rfl⟩)
      · intro q hq hqerr
        cases hpar.symm.trans hq
        exact absurd hlive hqerr
    case h_2 already herr =>
      have hperr : s.err p ≠ none := by rw [herr]; nofun
      refine ⟨hi.tasks.goOn [.cancel c already false] hf rfl rfl rfl hkeep
        (fun _ he => he) hborn (by simp) ?_ ?_ (by simp), ?_⟩
      · intro x r b hx
        cases List.mem_singleton.mp hx
        exact update_self _ _ _
      · intro x r hx
        cases List.mem_singleton.mp hx
        exact ⟨p, hpar, hperr⟩
      · refine hi.tree.register [.cancel c already false] hf hlt hun (fun _ _ hx => hx)
          (fun _ _ hx => .inl hx) hi.tree.nodup hi.tree.cleared ?_ ?_
        · intro q hq hlive
          cases hpar.symm.trans hq
          exact absurd hlive hperr
        · exact fun _ _ _ => ⟨already, false, List.mem_singleton.mpr rfl⟩

/-! ## `_cancel` -/

/-- A call of `_cancel` on a cancelled context does nothing. -/
theorem Tree.skip (h : Tree s)
    (hf : s.calls f = .cancel c r b :: rest) (hc : s.err c ≠ none) : Tree (s.goOn f rest) := by
  have hpend : ∀ v, s.Pending v → v ≠ .cancel c r b → (s.goOn f rest).Pending v :=
    fun v hv hne => State.Pending.goOn [] hf hv hne
  refine ⟨h.known, h.fresh, ?_, h.alive, h.above, h.kids, h.nodup, h.cleared, h.linked, ?_, ?_,
    h.closed, h.once⟩
  · exact fun x hx hun => hpend _ (h.waiting x hx hun) nofun
  · intro x p hp hx hperr
    by_cases hxc : x = c
    · exact .inl (hxc ▸ hc)
    · rcases h.owed x p hp hx hperr with hxerr | ⟨r', b', hb⟩
      · exact .inl hxerr
      · exact .inr ⟨r', b', hpend _ hb (by simp [hxc])⟩
  · exact fun p x hx hxerr => hpend _ (h.stale p x hx hxerr) nofun

/-- What the locked section of `_cancel` leaves to do. -/
def fanOut (s : State) (c : ℕ) (r : Reason) (b : Bool) : List Todo :=
  (s.children c).map (fun x => Todo.cancel x r false) ++ if b then [Todo.removeChild c] else []

theorem mem_fanOut :
    u ∈ fanOut s c r b ↔
      (∃ x ∈ s.children c, u = .cancel x r false) ∨ b = true ∧ u = .removeChild c := by
  unfold fanOut
  cases b <;> simp [eq_comm]

/-- The state after the locked section. -/
def cancelled (s : State) (c : ℕ) (r : Reason) : State :=
  { s with
    err := Function.update s.err c (some r)
    done := Function.update s.done c true
    children := Function.update s.children c []
    sets := Function.update s.sets c (s.sets c + 1) }

theorem cancelled_err (x : ℕ) :
    (cancelled s c r).err x ≠ none ↔ x = c ∨ s.err x ≠ none := by
  by_cases hx : x = c
  · simp [cancelled, hx]
  · simp [cancelled, hx]

theorem cancelled_live {x : ℕ} (h : (cancelled s c r).err x = none) :
    x ≠ c ∧ s.err x = none := by
  constructor
  · rintro rfl
    exact (cancelled_err (r := r) x).mpr (.inl rfl) h
  · by_contra hx
    exact (cancelled_err (r := r) x).mpr (.inr hx) h

theorem mem_cancelled_children {p x : ℕ} :
    x ∈ (cancelled s c r).children p ↔ p ≠ c ∧ x ∈ s.children p := by
  by_cases hp : p = c
  · simp [cancelled, hp]
  · simp [cancelled, hp]

theorem Tree.cancel (h : Tree s) (hi : Tasks s)
    (hf : s.calls f = .cancel c r b :: rest) (hlive : s.err c = none) :
    Tree ((cancelled s c r).goOn f (fanOut s c r b ++ rest)) := by
  have hmine : s.Pending (.cancel c r b) := ⟨f, by rw [hf]; exact List.mem_cons_self⟩
  have hreg := hi.target c r b hmine
  have hpend : ∀ v, s.Pending v → v ≠ .cancel c r b →
      ((cancelled s c r).goOn f (fanOut s c r b ++ rest)).Pending v :=
    fun v hv hne => State.Pending.goOn (fanOut s c r b) hf hv hne
  have hnew : ∀ v ∈ fanOut s c r b,
      ((cancelled s c r).goOn f (fanOut s c r b ++ rest)).Pending v :=
    fun v hv => pending_goOn.mpr (.inl (List.mem_append_left _ hv))
  constructor
  case known => exact h.known
  case fresh => exact h.fresh
  case waiting => exact fun x hx hun => hpend _ (h.waiting x hx hun) nofun
  case alive =>
    intro x hun
    by_contra hx
    rcases (cancelled_err x).mp hx with rfl | hx
    · exact absurd (hreg.symm.trans hun) nofun
    · exact hx (h.alive x hun)
  case above => exact h.above
  case kids => exact fun p x hx => h.kids p x (mem_cancelled_children (r := r).mp hx).2
  case nodup =>
    intro p
    show (update s.children c [] p).Nodup
    by_cases hp : p = c
    · rw [hp, update_self]
      exact List.nodup_nil
    · rw [update_of_ne hp]
      exact h.nodup p
  case cleared =>
    intro p hp
    show update s.children c [] p = []
    by_cases hpc : p = c
    · rw [hpc, update_self]
    · rw [update_of_ne hpc]
      exact h.cleared p (((cancelled_err p).mp hp).resolve_left hpc)
  case linked =>
    intro x p hp hx hperr hxerr
    obtain ⟨hpc, hperr⟩ := cancelled_live hperr
    obtain ⟨-, hxerr⟩ := cancelled_live hxerr
    exact mem_cancelled_children (r := r).mpr ⟨hpc, h.linked x p hp hx hperr hxerr⟩
  case owed =>
    intro x p hp hx hperr
    by_cases hlate : (cancelled s c r).err x = none
    · right
      obtain ⟨hxc, hxerr⟩ := cancelled_live hlate
      rcases (cancelled_err p).mp hperr with hpc | hperr
      · -- the child is in the snapshot
        have hkid := h.linked x p hp hx (hpc ▸ hlive) hxerr
        exact ⟨r, false, hnew _ (mem_fanOut.mpr (.inl ⟨x, hpc ▸ hkid, rfl⟩))⟩
      · rcases h.owed x p hp hx hperr with hset | ⟨r', b', hb⟩
        · exact absurd hxerr hset
        · exact ⟨r', b', hpend _ hb (by simp [hxc])⟩
    · exact .inl hlate
  case stale =>
    intro p x hx hxerr
    obtain ⟨hpc, hkid⟩ := mem_cancelled_children (r := r).mp hx
    rcases (cancelled_err x).mp hxerr with hxc | hxerr
    · cases b with
      | true => exact hnew _ (mem_fanOut.mpr (.inr ⟨rfl, by rw [hxc]⟩))
      | false =>
        -- the parent is cancelled, and its list is empty
        obtain ⟨q, hq, hqerr⟩ := hi.fanned c r hmine
        cases hq.symm.trans (h.kids p c (hxc ▸ hkid)).1
        rw [h.cleared p hqerr] at hkid
        cases hkid
    · exact hpend _ (h.stale p x hkid hxerr) nofun
  case closed =>
    intro x
    refine Iff.trans ?_ (cancelled_err x).symm
    show update s.done c true x = true ↔ _
    by_cases hx : x = c
    · simp [hx]
    · rw [update_of_ne hx, h.closed x]
      simp [hx]
  case once =>
    intro x
    show update s.sets c (s.sets c + 1) x =
      if update s.err c (some r) x = none then 0 else 1
    by_cases hx : x = c
    · rw [hx, update_self, update_self, h.once c, hlive]
      rfl
    · rw [update_of_ne hx, update_of_ne hx]
      exact h.once x

theorem cancel_inv (hi : Inv s)
    (hf : s.calls f = .cancel c r b :: rest) : Inv (s.cancel f c r b rest) := by
  unfold State.cancel
  split
  case h_1 r' herr =>
    have hc : s.err c ≠ none := by rw [herr]; nofun
    exact ⟨hi.tasks.goOn [] hf rfl rfl rfl (fun _ hx => hx) (fun _ hx => hx) (fun _ hx _ => hx)
      nofun nofun nofun nofun, hi.tree.skip hf hc⟩
  case h_2 hlive =>
    refine ⟨?_, hi.tree.cancel hi.tasks hf hlive⟩
    refine hi.tasks.goOn (fanOut s c r b) hf rfl rfl rfl (fun _ hx => hx)
      (fun x hx => (cancelled_err (r := r) x).mpr (.inr hx)) (fun _ hx _ => hx) ?_ ?_ ?_ ?_
    · intro x hx
      rcases mem_fanOut.mp hx with ⟨y, -, hy⟩ | ⟨-, hy⟩
      · cases hy
      · cases hy
    · intro x r' b' hx
      rcases mem_fanOut.mp hx with ⟨y, hkid, hy⟩ | ⟨-, hy⟩
      · cases hy
        exact (hi.tree.kids c x hkid).2
      · cases hy
    · intro x r' hx
      rcases mem_fanOut.mp hx with ⟨y, hkid, hy⟩ | ⟨-, hy⟩
      · cases hy
        exact ⟨c, (hi.tree.kids c x hkid).1, (cancelled_err (r := r) c).mpr (.inl rfl)⟩
      · cases hy
    · intro x hx
      rcases mem_fanOut.mp hx with ⟨y, -, hy⟩ | ⟨-, hy⟩
      · cases hy
      · cases hy
        exact (cancelled_err (r := r) c).mpr (.inl rfl)

/-! ## `_remove_child` -/

theorem removeChild_inv (hi : Inv s) (hf : s.calls f = .removeChild c :: rest) :
    Inv (s.removeChild f c rest) := by
  have hcerr := hi.tasks.removing c ⟨f, by rw [hf]; exact List.mem_cons_self⟩
  have h := hi.tree
  have hpend : ∀ v, s.Pending v → v ≠ .removeChild c → (s.goOn f rest).Pending v :=
    fun v hv hne => State.Pending.goOn [] hf hv hne
  unfold State.removeChild
  split
  case h_1 hpar =>
    refine ⟨hi.tasks.goOn [] hf rfl rfl rfl (fun _ hx => hx) (fun _ hx => hx) (fun _ hx _ => hx)
      nofun nofun nofun nofun, ?_⟩
    refine ⟨h.known, h.fresh, fun x hx hun => hpend _ (h.waiting x hx hun) nofun, h.alive, h.above,
      h.kids, h.nodup, h.cleared, h.linked, ?_, ?_, h.closed, h.once⟩
    · intro x p hp hx hperr
      exact (h.owed x p hp hx hperr).imp_right fun ⟨r, b, hb⟩ => ⟨r, b, hpend _ hb nofun⟩
    · intro p x hx hxerr
      refine hpend _ (h.stale p x hx hxerr) ?_
      rintro ⟨⟩
      exact absurd (hpar.symm.trans (h.kids p c hx).1) nofun
  case h_2 p hpar =>
    have hmem : ∀ q x, x ∈ update s.children p ((s.children p).erase c) q ↔
        x ∈ s.children q ∧ ¬ (q = p ∧ x = c) := by
      intro q x
      by_cases hq : q = p
      · rw [hq, update_self, (h.nodup p).mem_erase_iff]
        simp [and_comm]
      · simp [hq]
    refine ⟨hi.tasks.goOn [] hf rfl rfl rfl (fun _ hx => hx) (fun _ hx => hx) (fun _ hx _ => hx)
      nofun nofun nofun nofun, ?_⟩
    constructor
    case known => exact h.known
    case fresh => exact h.fresh
    case waiting => exact fun x hx hun => hpend _ (h.waiting x hx hun) nofun
    case alive => exact h.alive
    case above => exact h.above
    case kids => exact fun q x hx => h.kids q x ((hmem q x).mp hx).1
    case nodup =>
      intro q
      show (update s.children p ((s.children p).erase c) q).Nodup
      by_cases hq : q = p
      · rw [hq, update_self]
        exact (h.nodup p).erase c
      · rw [update_of_ne hq]
        exact h.nodup q
    case cleared =>
      intro q hq
      show update s.children p ((s.children p).erase c) q = []
      by_cases hqp : q = p
      · rw [hqp, update_self, h.cleared p (hqp ▸ hq)]
        rfl
      · rw [update_of_ne hqp]
        exact h.cleared q hq
    case linked =>
      intro x q hq hx hqerr hxerr
      refine (hmem q x).mpr ⟨h.linked x q hq hx hqerr hxerr, ?_⟩
      rintro ⟨-, rfl⟩
      exact hcerr hxerr
    case owed =>
      intro x q hq hx hqerr
      exact (h.owed x q hq hx hqerr).imp_right fun ⟨r, b, hb⟩ => ⟨r, b, hpend _ hb nofun⟩
    case stale =>
      intro q x hx hxerr
      obtain ⟨hx, hne⟩ := (hmem q x).mp hx
      refine hpend _ (h.stale q x hx hxerr) ?_
      rintro ⟨⟩
      cases hpar.symm.trans (h.kids q c hx).1
      exact hne ⟨rfl, rfl⟩
    case closed => exact h.closed
    case once => exact h.once

/-! ## A call begins -/

theorem pending_begin (h : (s.goOn f [u]).Pending v) :
    v = u ∨ s.Pending v := by
  rcases pending_goOn.mp h with h | ⟨g, -, h⟩
  · exact .inl (List.mem_singleton.mp h)
  · exact .inr ⟨g, h⟩

theorem State.Pending.begin (hf : s.calls f = []) (h : s.Pending v) : (s.goOn f [u]).Pending v := by
  obtain ⟨g, hg⟩ := h
  refine pending_goOn.mpr (.inr ⟨g, ?_, hg⟩)
  rintro rfl
  rw [hf] at hg
  cases hg

theorem callCancel_inv (hi : Inv s) (hf : s.calls f = [])
    (hc : s.registered c = true) : Inv (s.goOn f [.cancel c r true]) := by
  have h := hi.tree
  have hregister : ∀ g x, .register x ∈ (s.goOn f [.cancel c r true]).calls g →
      g ≠ f ∧ .register x ∈ s.calls g := by
    intro g x hg
    by_cases hgf : g = f
    · simp [hgf, State.goOn] at hg
    · exact ⟨hgf, by simpa [State.goOn, hgf] using hg⟩
  constructor
  case tasks =>
    constructor
    case alone =>
      intro g x hg
      obtain ⟨hgf, hg⟩ := hregister g x hg
      simpa [State.goOn, hgf] using hi.tasks.alone g x hg
    case unique =>
      intro g g' x hg hg'
      exact hi.tasks.unique g g' x (hregister g x hg).2 (hregister g' x hg').2
    case unborn =>
      rintro x ⟨g, hg⟩
      exact hi.tasks.unborn x ⟨g, (hregister g x hg).2⟩
    case target =>
      intro x r' b hp
      rcases pending_begin hp with hp | hp
      · cases hp
        exact hc
      · exact hi.tasks.target x r' b hp
    case fanned =>
      intro x r' hp
      rcases pending_begin hp with hp | hp
      · cases hp
      · exact hi.tasks.fanned x r' hp
    case removing =>
      intro x hp
      rcases pending_begin hp with hp | hp
      · cases hp
      · exact hi.tasks.removing x hp
  case tree =>
    refine ⟨h.known, h.fresh, fun x hx hun => (h.waiting x hx hun).begin hf, h.alive, h.above,
      h.kids, h.nodup, h.cleared, h.linked, ?_, ?_, h.closed, h.once⟩
    · intro x p hp hx hperr
      exact (h.owed x p hp hx hperr).imp_right fun ⟨r, b, hb⟩ => ⟨r, b, hb.begin hf⟩
    · exact fun p x hx hxerr => (h.stale p x hx hxerr).begin hf

theorem new_inv {parent : Option ℕ} (hi : Inv s) (hf : s.calls f = [])
    (hp : ∀ p, parent = some p → s.registered p = true) :
    Inv (State.goOn { s with next := s.next + 1
                             parent := update s.parent s.next parent } f
      [.register s.next]) := by
  have h := hi.tree
  have hfresh : s.registered s.next = false := by
    by_contra hx
    exact Nat.lt_irrefl _ (h.known s.next (by simpa using hx))
  have hnot : ¬ s.Pending (.register s.next) := fun hx =>
    Nat.lt_irrefl _ (hi.tasks.unborn s.next hx).1
  have hpar : ∀ c, s.registered c = true → update s.parent s.next parent c = s.parent c := by
    intro c hc
    exact update_of_ne (Nat.ne_of_lt (h.known c hc)) _ _
  have hregister : ∀ g x, .register x ∈ update s.calls f [.register s.next] g →
      (g = f ∧ x = s.next) ∨ (g ≠ f ∧ .register x ∈ s.calls g) := by
    intro g x hg
    by_cases hgf : g = f
    · exact .inl ⟨hgf, by simpa [hgf] using hg⟩
    · exact .inr ⟨hgf, by simpa [hgf] using hg⟩
  constructor
  case tasks =>
    constructor
    case alone =>
      intro g x hg
      show update s.calls f [.register s.next] g = [.register x]
      rcases hregister g x hg with ⟨rfl, rfl⟩ | ⟨hgf, hg⟩
      · exact update_self _ _ _
      · rw [update_of_ne hgf]
        exact hi.tasks.alone g x hg
    case unique =>
      intro g g' x hg hg'
      rcases hregister g x hg with ⟨hgf, hx⟩ | ⟨-, hold⟩
      · rcases hregister g' x hg' with ⟨hgf', -⟩ | ⟨-, hold'⟩
        · rw [hgf, hgf']
        · exact absurd ⟨g', hx ▸ hold'⟩ hnot
      · rcases hregister g' x hg' with ⟨-, hx⟩ | ⟨-, hold'⟩
        · exact absurd ⟨g, hx ▸ hold⟩ hnot
        · exact hi.tasks.unique g g' x hold hold'
    case unborn =>
      rintro x ⟨g, hg⟩
      rcases hregister g x hg with ⟨-, rfl⟩ | ⟨-, hg⟩
      · exact ⟨Nat.lt_succ_self _, hfresh⟩
      · obtain ⟨hlt, hun⟩ := hi.tasks.unborn x ⟨g, hg⟩
        exact ⟨Nat.lt_succ_of_lt hlt, hun⟩
    case target =>
      intro x r b hx
      rcases pending_begin (s := { s with next := s.next + 1, parent := _ }) hx with hx | hx
      · cases hx
      · exact hi.tasks.target x r b hx
    case fanned =>
      intro x r hx
      rcases pending_begin (s := { s with next := s.next + 1, parent := _ }) hx with hx | hx
      · cases hx
      · obtain ⟨p, hxp, hperr⟩ := hi.tasks.fanned x r hx
        exact ⟨p, (hpar x (hi.tasks.target x r false hx)).trans hxp, hperr⟩
    case removing =>
      intro x hx
      rcases pending_begin (s := { s with next := s.next + 1, parent := _ }) hx with hx | hx
      · cases hx
      · exact hi.tasks.removing x hx
  case tree =>
    constructor
    case known => exact fun c hc => Nat.lt_succ_of_lt (h.known c hc)
    case fresh =>
      intro c hc
      have hc : s.next + 1 ≤ c := hc
      show update s.parent s.next parent c = none
      rw [update_of_ne (by omega)]
      exact h.fresh c (by omega)
    case waiting =>
      intro c hc hun
      have hc : c < s.next + 1 := hc
      by_cases hcn : c = s.next
      · exact pending_goOn.mpr (.inl (by rw [hcn]; exact List.mem_singleton.mpr rfl))
      · exact State.Pending.begin (s := { s with next := s.next + 1, parent := _ }) hf
          (h.waiting c (by omega) hun)
    case alive => exact h.alive
    case above =>
      intro c p hc
      have hc : update s.parent s.next parent c = some p := hc
      by_cases hcn : c = s.next
      · rw [hcn, update_self] at hc
        exact hp p hc
      · rw [update_of_ne hcn] at hc
        exact h.above c p hc
    case kids =>
      intro p c hc
      obtain ⟨hcp, hreg⟩ := h.kids p c hc
      exact ⟨(hpar c hreg).trans hcp, hreg⟩
    case nodup => exact h.nodup
    case cleared => exact h.cleared
    case linked => exact fun c p hc hreg => h.linked c p ((hpar c hreg).symm.trans hc) hreg
    case owed =>
      intro c p hc hreg hperr
      refine (h.owed c p ((hpar c hreg).symm.trans hc) hreg hperr).imp_right fun ⟨r, b, hb⟩ => ?_
      exact ⟨r, b, State.Pending.begin (s := { s with next := s.next + 1, parent := _ }) hf hb⟩
    case stale =>
      intro p c hc hcerr
      exact State.Pending.begin (s := { s with next := s.next + 1, parent := _ }) hf
        (h.stale p c hc hcerr)
    case closed => exact h.closed
    case once => exact h.once

theorem step_inv {a : Action} (hi : Inv s) (hs : step s a = some t) : Inv t := by
  cases a with
  | new f parent =>
    simp only [step] at hs
    split at hs <;> cases hs
    next hok =>
    refine new_inv hi hok.1 ?_
    rintro p rfl
    simpa using hok.2
  | cancel f c reason =>
    simp only [step] at hs
    split at hs <;> cases hs
    next hok => exact callCancel_inv hi hok.1 hok.2
  | run f =>
    simp only [step] at hs
    split at hs <;> cases hs
    case h_2 c rest hf => exact register_inv hi hf
    case h_3 c r b rest hf => exact cancel_inv hi hf
    case h_4 c rest hf => exact removeChild_inv hi hf

/-- A reason that is set stays. -/
theorem step_err {a : Action} (hs : step s a = some t)
    (h : s.err c = some r) : t.err c = some r := by
  cases a with
  | new f parent =>
    simp only [step] at hs
    split at hs <;> cases hs
    exact h
  | cancel f x reason =>
    simp only [step] at hs
    split at hs <;> cases hs
    exact h
  | run f =>
    simp only [step] at hs
    split at hs <;> cases hs
    case h_2 x rest hf =>
      simp only [State.register]
      split
      · exact h
      · split
        · exact h
        · exact h
    case h_3 x reason b rest hf =>
      simp only [State.cancel]
      split
      · exact h
      · next hlive =>
        have hne : c ≠ x := by
          rintro rfl
          exact absurd (hlive.symm.trans h) nofun
        simpa [State.goOn, hne] using h
    case h_4 x rest hf =>
      simp only [State.removeChild]
      split
      · exact h
      · exact h

theorem run_err {as : List Action} (hs : system.run s as = some t)
    (h : s.err c = some r) : t.err c = some r := by
  induction as generalizing s with
  | nil =>
    cases hs
    exact h
  | cons a as ih =>
    obtain ⟨u, hu, hrest⟩ := Option.bind_eq_some_iff.mp hs
    exact ih hrest (step_err hu h)

/-! ## Every descendant is reached -/

theorem State.Quiet.not_pending (h : s.Quiet) (u : Todo) : ¬ s.Pending u := by
  rintro ⟨f, hf⟩
  rw [h f] at hf
  cases hf

/-- In a quiet state a child of a cancelled context is cancelled. -/
theorem Inv.child_cancelled (hi : Inv s) (hq : s.Quiet) {p : ℕ} (hp : s.parent c = some p)
    (hperr : s.err p ≠ none) : s.err c ≠ none := by
  have hlt : c < s.next := by
    by_contra hge
    exact absurd ((hi.tree.fresh c (by omega)).symm.trans hp) nofun
  have hreg : s.registered c = true := by
    by_contra hun
    exact hq.not_pending _ (hi.tree.waiting c hlt (by simpa using hun))
  rcases hi.tree.owed c p hp hreg hperr with hset | ⟨r, b, hb⟩
  · exact hset
  · exact absurd hb (hq.not_pending _)

theorem Inv.descendant_cancelled (hi : Inv s) (hq : s.Quiet) {x : ℕ} (hx : s.Descends x c)
    (hc : s.err c ≠ none) : s.err x ≠ none := by
  induction hx using Relation.TransGen.head_induction_on with
  | single h => exact hi.child_cancelled hq h hc
  | head h _ ih => exact hi.child_cancelled hq h ih

end Steps

theorem reachable_inv {s : State} (hr : Reachable system s) : Inv s := by
  refine Reachable.invariant ?_ ?_ hr
  · rintro _ rfl
    exact inv_init
  · exact fun _ _ _ _ hi hs => step_inv hi hs

theorem reachable_reached {s : State} (hr : Reachable system s) : Reached s := by
  have hi := reachable_inv hr
  constructor
  case descendants =>
    intro hq c x hc hx
    have hset := hi.descendant_cancelled hq hx hc
    exact ⟨hset, (hi.tree.closed x).mpr hset⟩
  case detached =>
    intro hq c p hc _ hkid
    exact hq.not_pending _ (hi.tree.stale p c hkid hc)
  case once => exact hi.tree.once
  case kept => exact fun as t hrun c r => run_err hrun

/-- Fiber 0 cancels the root while fiber 1 registers a grandchild below a child that the
fan-out has not come to: the grandchild is in the list when its parent is cancelled. -/
def raceRun : List Action :=
  [.new 0 none, .run 0, .new 0 (some 0), .run 0, .new 1 (some 1), .cancel 0 0 .cancelled, .run 0,
    .run 1, .run 0, .run 0, .run 0]

theorem reachable_reached_race :
    ∃ s, system.run init raceRun = some s ∧ s.calls 0 = [] ∧ s.calls 1 = [] ∧
      s.err 2 = some .cancelled ∧ s.done 2 = true ∧ Reached s :=
  ⟨_, rfl, rfl, rfl, rfl, rfl, reachable_reached (reachable_of_run system raceRun rfl rfl)⟩

end Stackweave.Context
