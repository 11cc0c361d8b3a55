import Mathlib.Logic.Function.Basic
import Stackweave.Netpoll.Arm

/-!
# The arm cache against the kernel (`netpoll_register.c.inc`)

The six operations that run under `runloom_pool.lock`, on any fds and from any
hubs, with an `epoll_ctl` that may fail at any call with any error. The cache has
a mask and an owner for each fd; the kernel has, for each epoll instance, the
fds that were added to it and their events. An fd is closed after `unregister`
and is not registered in between.

A failed `EPOLL_CTL_DEL` is ignored, `validate_arm` clears the cache without one,
and a registration for no direction adds the fd all the same. After each of the
three the fd may be in an instance that the cache does not name; `spoiled` is
the record of them.
-/

namespace Stackweave.Netpoll.ArmCache

open Transition Arm Function

inductive Errno
  | enoent
  | eexist
  | other
  deriving DecidableEq

inductive Ctl
  | add (events : Mask)
  | mod (events : Mask)
  | del

/-- One fd: `runloom_fd_armed`, `runloom_fd_epoll_pool` and the kernel's side. `retired` is
after `unregister` and before the close. -/
structure Entry where
  armed : Mask
  owner : Instance
  kernel : Instance → Option Mask
  isOpen : Bool
  retired : Bool
  spoiled : Bool

def Entry.init : Entry :=
  { armed := .none, owner := none, kernel := fun _ => none, isOpen := false, retired := false
    spoiled := false }

/-- `epoll_ctl`; `fault` is an error it fails with for reasons of its own. -/
def Entry.ctl (x : Entry) (e : Instance) (op : Ctl) : Option Errno → Entry × Option Errno
  | some err => (x, some err)
  | none =>
    if x.isOpen then
      match op, x.kernel e with
      | .add m, none => ({ x with kernel := Function.update x.kernel e (some m) }, none)
      | .add _, some _ => (x, some .eexist)
      | .mod m, some _ => ({ x with kernel := Function.update x.kernel e (some m) }, none)
      | .mod _, none => (x, some .enoent)
      | .del, some _ => ({ x with kernel := Function.update x.kernel e none }, none)
      | .del, none => (x, some .enoent)
    else (x, some .other)

/-- The errors of the calls that one operation makes. -/
structure Faults where
  del : Option Errno
  first : Option Errno
  second : Option Errno

/-- `EPOLL_CTL_DEL` with its result ignored. -/
def Entry.remove (x : Entry) (e : Instance) (fault : Option Errno) : Entry :=
  let y := (x.ctl e .del fault).1
  { y with spoiled := y.spoiled || (y.kernel e).isSome }

/-- Two calls, the second one after an error `err` of the first. -/
def Entry.retry (x : Entry) (e : Instance) (op op' : Ctl) (err : Errno) (f : Faults) :
    Entry × Bool :=
  let (y, r) := x.ctl e op f.first
  if r = none then (y, true)
  else if r = some err then
    let (z, r') := y.ctl e op' f.second
    (z, r' = none)
  else (y, false)

/-- The fresh `EPOLL_CTL_ADD` of `runloom_netpoll_register`. -/
def Entry.fresh (x : Entry) (e : Instance) (target : Mask) (f : Faults) : Entry × Bool :=
  let (y, ok) := { x with armed := target, owner := e }.retry e (.add target) (.mod target) .eexist f
  if ok then ({ y with spoiled := y.spoiled || target.isEmpty }, true)
  else ({ y with armed := .none, owner := none }, false)

/-- The widening `EPOLL_CTL_MOD`. -/
def Entry.widen (x : Entry) (target : Mask) (f : Faults) : Entry × Bool :=
  let (y, ok) := { x with armed := target }.retry x.owner (.mod target) (.add target) .enoent f
  if ok then (y, true) else ({ y with armed := x.armed }, false)

/-- `runloom_netpoll_register` from a hub whose instance is `e`; `fits` is whether the
cache has room for the fd. -/
def Entry.register (x : Entry) (fits : Bool) (e : Instance) (events : Mask) (f : Faults) :
    Entry × Bool :=
  if x.armed.isEmpty then
    if fits then x.fresh e events f else (x, false)
  else if x.owner ≠ none ∧ x.owner ≠ e then
    -- a second pool wants the fd: move it to the shared instance
    (x.remove x.owner f.del).fresh none (x.armed.union events) f
  else if events.le x.armed then (x, true)
  else x.widen (x.armed.union events) f

/-- `runloom_netpoll_disarm_out` and `runloom_netpoll_disarm_in` -/
def Entry.disarm (x : Entry) (d : Dir) (f : Faults) : Entry :=
  if x.armed d then
    let rest := x.armed.without d
    if rest.isEmpty then { x with armed := .none, owner := none }.remove x.owner f.del
    else ({ x with armed := rest }.retry x.owner (.mod rest) (.add rest) .enoent f).1
  else x

/-- The cache is cleared as in `unregister`, but the fd stays open. -/
def Entry.clear (x : Entry) : Entry :=
  { x with armed := .none, owner := none, spoiled := x.spoiled || (x.kernel x.owner).isSome }

/-- `runloom_netpoll_validate_arm`; `waiter` is whether some parker waits on the fd. -/
def Entry.validateArm (x : Entry) (waiter : Bool) (f : Faults) : Entry :=
  if x.armed.isEmpty then x
  else
    let (y, r) := x.ctl x.owner (.mod x.armed) f.first
    if r = none then y
    else if r = some .enoent ∧ waiter then
      let (z, r') := y.ctl x.owner (.add x.armed) f.second
      if r' = none then z else z.clear
    else y.clear

/-- `runloom_netpoll_release_if_idle`; `idle` is whether no parker waits on the fd. -/
def Entry.releaseIfIdle (x : Entry) (idle : Bool) (f : Faults) : Entry :=
  if idle ∧ !x.armed.isEmpty then
    { x with armed := .none, owner := none }.remove x.owner f.del
  else x

/-- `runloom_netpoll_unregister` -/
def Entry.unregister (x : Entry) : Entry :=
  { x with armed := .none, owner := none, retired := x.isOpen }

/-- The kernel drops a closed fd from every instance. -/
def Entry.close (x : Entry) : Entry :=
  { x with isOpen := false, retired := false, spoiled := false, kernel := fun _ => none }

inductive Act
  | register (fd : ℕ) (e : Instance) (events : Mask) (f : Faults)
  | disarmOut (fd : ℕ) (f : Faults)
  | disarmIn (fd : ℕ) (f : Faults)
  | validateArm (fd : ℕ) (waiter : Bool) (f : Faults)
  | releaseIfIdle (fd : ℕ) (idle : Bool) (f : Faults)
  | unregister (fd : ℕ)
  | openFd (fd : ℕ)
  | closeFd (fd : ℕ)

/-- `cap` is the length of the arrays of the cache. -/
@[grind =]
def step (cap : ℕ) (s : ℕ → Entry) : Act → Option (ℕ → Entry)
  | .register fd e events f =>
    if (s fd).retired then none
    else some (Function.update s fd ((s fd).register (fd < cap) e events f).1)
  | .disarmOut fd f => some (Function.update s fd ((s fd).disarm .write f))
  | .disarmIn fd f => some (Function.update s fd ((s fd).disarm .read f))
  | .validateArm fd waiter f => some (Function.update s fd ((s fd).validateArm waiter f))
  | .releaseIfIdle fd idle f => some (Function.update s fd ((s fd).releaseIfIdle idle f))
  | .unregister fd => some (Function.update s fd (s fd).unregister)
  | .openFd fd =>
    if (s fd).isOpen then none else some (Function.update s fd { s fd with isOpen := true })
  | .closeFd fd => if (s fd).retired then some (Function.update s fd (s fd).close) else none

def system (cap : ℕ) : System (ℕ → Entry) Act where
  init s := s = fun _ => Entry.init
  step := step cap

/-- Every recorded direction is in the kernel, in the recorded instance. -/
def Entry.Covered (x : Entry) : Prop :=
  x.armed.isEmpty = false → ∃ m, x.kernel x.owner = some m ∧ ∀ d, x.armed d = true → m d = true

/-- And the fd is in no other one. -/
def Entry.Alone (x : Entry) : Prop :=
  x.armed.isEmpty = false → ∀ e, e ≠ x.owner → x.kernel e = none

/-- A registration that succeeds keeps what was recorded. -/
def Entry.Widens (x : Entry) : Prop :=
  ∀ fits e events f, (x.register fits e events f).2 = true →
    ∀ d, x.armed d = true → (x.register fits e events f).1.armed d = true

/-! ## `epoll_ctl` -/

/-- What an instance has for the fd after a call that succeeds. -/
@[grind =]
def Ctl.result : Ctl → Option Mask
  | .add m | .mod m => some m
  | .del => none

variable {x : Entry} {e : Instance}

theorem ctl_ok {y : Entry} {op : Ctl} {fault : Option Errno}
    (h : x.ctl e op fault = (y, none)) :
    x.isOpen = true ∧ y = { x with kernel := update x.kernel e op.result } := by
  cases fault with
  | some err => simp [Entry.ctl] at h
  | none =>
    simp only [Entry.ctl] at h
    split at h
    case isFalse => simp at h
    case isTrue hopen =>
      refine ⟨hopen, ?_⟩
      split at h
      all_goals
        simp only [Prod.mk.injEq] at h
        first
          | exact h.1.symm
          | simp at h

theorem ctl_error {y : Entry} {op : Ctl} {fault : Option Errno} {err : Errno}
    (h : x.ctl e op fault = (y, some err)) : y = x := by
  cases fault with
  | some err' =>
    simp only [Entry.ctl, Prod.mk.injEq] at h
    exact h.1.symm
  | none =>
    simp only [Entry.ctl] at h
    split at h
    case isFalse =>
      simp only [Prod.mk.injEq] at h
      exact h.1.symm
    case isTrue =>
      split at h
      all_goals
        simp only [Prod.mk.injEq] at h
        first
          | exact h.1.symm
          | simp at h

/-- Two tries of which one succeeds have set the events; otherwise nothing happened. -/
theorem retry_cases (x : Entry) (e : Instance) {m : Mask} (op op' : Ctl) (err : Errno)
    (f : Faults) (hop : op.result = some m) (hop' : op'.result = some m) :
    x.isOpen = true ∧ x.retry e op op' err f =
      ({ x with kernel := update x.kernel e (some m) }, true) ∨
    x.retry e op op' err f = (x, false) := by
  unfold Entry.retry
  obtain ⟨⟨y, r⟩, hy⟩ : ∃ p, x.ctl e op f.first = p := ⟨_, rfl⟩
  simp only [hy]
  cases r with
  | none =>
    obtain ⟨hopen, rfl⟩ := ctl_ok hy
    rw [hop]
    exact .inl ⟨hopen, by simp⟩
  | some err' =>
    obtain rfl := ctl_error hy
    by_cases he : err' = err
    · obtain ⟨⟨z, r'⟩, hz⟩ : ∃ p, y.ctl e op' f.second = p := ⟨_, rfl⟩
      simp only [hz, he]
      cases r' with
      | none =>
        obtain ⟨hopen, rfl⟩ := ctl_ok hz
        rw [hop']
        exact .inl ⟨hopen, by simp⟩
      | some err'' =>
        obtain rfl := ctl_error hz
        exact .inr (by simp)
    · exact .inr (by simp [he])

/-! ## One fd -/

structure Good (x : Entry) : Prop where
  covered : x.Covered
  alone : x.spoiled = false → x.Alone
  clean : x.armed.isEmpty = true → x.spoiled = false → x.retired = false → ∀ e, x.kernel e = none
  retired : x.retired = true → x.armed.isEmpty = true
  closed : x.isOpen = false → ∀ e, x.kernel e = none

theorem init_good : Good Entry.init := by
  constructor
  case covered => intro h; cases h
  case alone => intro _ h; cases h
  case clean => intro _ _ _ e; rfl
  case retired => intro h; cases h
  case closed => intro _ e; rfl

/-- Nothing is recorded, and nothing that the record would miss is in the kernel. -/
theorem good_of_empty (harmed : x.armed.isEmpty = true)
    (hclean : x.spoiled = false → x.retired = false → ∀ e, x.kernel e = none)
    (hclosed : x.isOpen = false → ∀ e, x.kernel e = none) : Good x := by
  constructor
  case covered => intro h; rw [harmed] at h; cases h
  case alone => intro _ h; rw [harmed] at h; cases h
  case clean => exact fun _ => hclean
  case retired => exact fun _ => harmed
  case closed => exact hclosed

/-- `EPOLL_CTL_DEL` on an instance that was the only one to have the fd. -/
theorem remove_clean (fault : Option Errno)
    (halone : x.spoiled = false → ∀ e', e' ≠ e → x.kernel e' = none) :
    (x.remove e fault).spoiled = false → ∀ e', (x.remove e fault).kernel e' = none := by
  intro hs e'
  simp only [Entry.remove, Bool.or_eq_false_iff, Option.isSome_eq_false_iff,
    Option.isNone_iff_eq_none] at hs ⊢
  obtain ⟨hs, hnone⟩ := hs
  by_cases he : e' = e
  · exact he ▸ hnone
  · obtain ⟨⟨y, r⟩, hy⟩ : ∃ p, x.ctl e .del fault = p := ⟨_, rfl⟩
    simp only [hy] at hs ⊢
    cases r with
    | none =>
      obtain ⟨-, rfl⟩ := ctl_ok hy
      simpa [he] using halone hs e' he
    | some err =>
      obtain rfl := ctl_error hy
      exact halone hs e' he

theorem remove_frame (x : Entry) (e : Instance) (fault : Option Errno) :
    (x.remove e fault).armed = x.armed ∧ (x.remove e fault).isOpen = x.isOpen ∧
      (x.remove e fault).retired = x.retired ∧
      ((∀ e', x.kernel e' = none) → ∀ e', (x.remove e fault).kernel e' = none) := by
  unfold Entry.remove
  obtain ⟨⟨y, r⟩, hy⟩ : ∃ p, x.ctl e .del fault = p := ⟨_, rfl⟩
  simp only [hy]
  cases r with
  | none =>
    obtain ⟨-, rfl⟩ := ctl_ok hy
    refine ⟨rfl, rfl, rfl, fun h e' => ?_⟩
    by_cases he : e' = e
    · simp [he, Ctl.result]
    · simpa [he] using h e'
  | some err =>
    obtain rfl := ctl_error hy
    exact ⟨rfl, rfl, rfl, fun h => h⟩

/-- The cache forgets the fd and the kernel is told. -/
theorem forget_good (h : Good x) (hne : x.armed.isEmpty = false) (f : Faults) :
    Good ({ x with armed := .none, owner := none }.remove x.owner f.del) := by
  obtain ⟨harmed, hopen, hret, hkernel⟩ :=
    remove_frame { x with armed := .none, owner := none } x.owner f.del
  refine good_of_empty (by rw [harmed]; rfl) (fun hs _ => ?_) fun ho => ?_
  · exact remove_clean f.del (fun hs e' he => h.alone hs hne e' he) hs
  · exact hkernel (h.closed (hopen ▸ ho))

theorem fresh_good {target : Mask} {f : Faults}
    (hclean : x.spoiled = false → ∀ e', x.kernel e' = none) (hret : x.retired = false)
    (hclosed : x.isOpen = false → ∀ e', x.kernel e' = none) : Good (x.fresh e target f).1 := by
  unfold Entry.fresh
  rcases retry_cases { x with armed := target, owner := e } e (.add target)
    (.mod target) .eexist f rfl rfl with ⟨hopen, hr⟩ | hr
  · simp only [hr, if_true]
    have hopen : x.isOpen = true := hopen
    constructor
    case covered =>
      intro _
      exact ⟨target, by simp, fun d hd => hd⟩
    case alone =>
      intro hs _ e' he
      simp only [Bool.or_eq_false_iff] at hs
      simpa [show e' ≠ e from he] using hclean hs.1 e'
    case clean =>
      -- a registration for no direction is on record
      intro hempty hs
      simp only [Bool.or_eq_false_iff] at hs
      rw [show target.isEmpty = true from hempty] at hs
      cases hs.2
    case retired => intro hr; rw [show x.retired = true from hr] at hret; cases hret
    case closed => intro ho; rw [show x.isOpen = false from ho] at hopen; cases hopen
  · simp only [hr]
    exact good_of_empty rfl (fun hs _ => hclean hs) hclosed

theorem union_isEmpty_left {a b : Mask} (h : a.isEmpty = false) : (a.union b).isEmpty = false := by
  revert h
  cases har : a .read <;> cases haw : a .write <;> simp [Mask.isEmpty, Mask.union, har, haw]

theorem widen_good (h : Good x) (hne : x.armed.isEmpty = false)
    {events : Mask} (f : Faults) : Good (x.widen (x.armed.union events) f).1 := by
  unfold Entry.widen
  have hret : x.retired = false := by
    cases hr : x.retired with
    | false => rfl
    | true => rw [h.retired hr] at hne; cases hne
  rcases retry_cases { x with armed := x.armed.union events } x.owner
    (.mod (x.armed.union events)) (.add (x.armed.union events)) .enoent f rfl rfl with
    ⟨hopen, hr⟩ | hr
  · simp only [hr, if_true]
    have hopen : x.isOpen = true := hopen
    constructor
    case covered => intro _; exact ⟨_, by simp, fun d hd => hd⟩
    case alone =>
      intro hs _ e' he
      simpa [show e' ≠ x.owner from he] using h.alone hs hne e' he
    case clean =>
      intro hempty
      have hunion := union_isEmpty_left (b := events) hne
      rw [show (x.armed.union events).isEmpty = true from hempty] at hunion
      cases hunion
    case retired => intro hr; rw [show x.retired = true from hr] at hret; cases hret
    case closed => intro ho; rw [show x.isOpen = false from ho] at hopen; cases hopen
  · simp only [hr]
    exact ⟨h.covered, h.alone, h.clean, h.retired, h.closed⟩

theorem register_good (h : Good x) (hret : x.retired = false) (fits : Bool)
    (e : Instance) (events : Mask) (f : Faults) : Good (x.register fits e events f).1 := by
  unfold Entry.register
  split
  case isTrue hempty =>
    split
    · exact fresh_good (fun hs => h.clean hempty hs hret) hret h.closed
    · exact h
  case isFalse hne =>
    have hne : x.armed.isEmpty = false := by simpa using hne
    split
    · obtain ⟨-, hopen, hret', hkernel⟩ := remove_frame x x.owner f.del
      exact fresh_good (remove_clean f.del fun hs => h.alone hs hne) (hret'.trans hret)
        fun ho => hkernel (h.closed (hopen ▸ ho))
    · split
      · exact h
      · exact widen_good h hne f

theorem disarm_good (h : Good x) (d : Dir) (f : Faults) : Good (x.disarm d f) := by
  unfold Entry.disarm
  split
  case isFalse => exact h
  case isTrue hd =>
    have hne : x.armed.isEmpty = false := by
      cases he : x.armed.isEmpty with
      | false => rfl
      | true => rw [isEmpty_iff.mp he d] at hd; cases hd
    obtain ⟨m, hm, hcov⟩ := h.covered hne
    dsimp only
    split
    case isTrue => exact forget_good h hne f
    case isFalse hrest =>
      have hsub : ∀ d', x.armed.without d d' = true → x.armed d' = true := by
        intro d' hd'
        simp only [Mask.without, Bool.and_eq_true] at hd'
        exact hd'.1
      rcases retry_cases { x with armed := x.armed.without d } x.owner
        (.mod (x.armed.without d)) (.add (x.armed.without d)) .enoent f rfl rfl with
        ⟨hopen, hr⟩ | hr
      · rw [hr]
        have hopen : x.isOpen = true := hopen
        constructor
        case covered => intro _; exact ⟨_, by simp, fun d' hd' => hd'⟩
        case alone =>
          intro hs _ e' he
          simpa [show e' ≠ x.owner from he] using h.alone hs hne e' he
        case clean => intro hempty; exact absurd hempty hrest
        case retired => intro hret; rw [h.retired hret] at hne; cases hne
        case closed => intro ho; rw [show x.isOpen = false from ho] at hopen; cases hopen
      · -- the kernel still has the wider set
        rw [hr]
        constructor
        case covered => intro _; exact ⟨m, hm, fun d' hd' => hcov d' (hsub d' hd')⟩
        case alone => intro hs _; exact h.alone hs hne
        case clean => intro hempty; exact absurd hempty hrest
        case retired => intro hret; rw [h.retired hret] at hne; cases hne
        case closed => exact h.closed

theorem clear_good (h : Good x) (hne : x.armed.isEmpty = false) : Good x.clear := by
  refine good_of_empty rfl (fun hs _ e => ?_) h.closed
  simp only [Entry.clear, Bool.or_eq_false_iff, Option.isSome_eq_false_iff,
    Option.isNone_iff_eq_none] at hs
  by_cases he : e = x.owner
  · exact he ▸ hs.2
  · exact h.alone hs.1 hne e he

theorem validateArm_good (h : Good x) (waiter : Bool) (f : Faults) :
    Good (x.validateArm waiter f) := by
  unfold Entry.validateArm
  split
  case isTrue => exact h
  case isFalse hne =>
    have hne : x.armed.isEmpty = false := by simpa using hne
    -- a call that succeeds leaves the recorded events in the recorded instance
    have hset : ∀ y op fault, op.result = some x.armed → x.ctl x.owner op fault = (y, none) →
        Good y := by
      intro y op fault hop hy
      obtain ⟨hopen, rfl⟩ := ctl_ok hy
      rw [hop]
      constructor
      case covered => intro _; exact ⟨x.armed, by simp, fun d hd => hd⟩
      case alone =>
        intro hs _ e he
        simpa [show e ≠ x.owner from he] using h.alone hs hne e he
      case clean => intro hempty; rw [show x.armed.isEmpty = true from hempty] at hne; cases hne
      case retired => intro hret; rw [h.retired hret] at hne; cases hne
      case closed => intro ho; rw [show x.isOpen = false from ho] at hopen; cases hopen
    obtain ⟨⟨y, r⟩, hy⟩ : ∃ p, x.ctl x.owner (.mod x.armed) f.first = p := ⟨_, rfl⟩
    simp only [hy]
    cases r with
    | none => exact hset y _ _ rfl hy
    | some err =>
      obtain rfl := ctl_error hy
      simp only [reduceCtorEq, if_false]
      split
      case isFalse => exact clear_good h hne
      case isTrue =>
        obtain ⟨⟨z, r'⟩, hz⟩ : ∃ p, y.ctl y.owner (.add y.armed) f.second = p := ⟨_, rfl⟩
        simp only [hz]
        cases r' with
        | none => exact hset z _ _ rfl hz
        | some err' =>
          obtain rfl := ctl_error hz
          exact clear_good h hne

theorem releaseIfIdle_good (h : Good x) (idle : Bool) (f : Faults) :
    Good (x.releaseIfIdle idle f) := by
  unfold Entry.releaseIfIdle
  split
  case isTrue hidle => exact forget_good h (by simpa using hidle.2) f
  case isFalse => exact h

theorem unregister_good (h : Good x) : Good x.unregister := by
  refine good_of_empty rfl (fun _ hret => ?_) h.closed
  exact h.closed hret

/-! ## All fds -/

theorem step_good {cap : ℕ} {s t : ℕ → Entry} {a : Act} (h : ∀ fd, Good (s fd))
    (hs : step cap s a = some t) : ∀ fd, Good (t fd) := by
  have hone : ∀ fd x, Good x → ∀ fd', Good (update s fd x fd') := by
    intro fd x hx fd'
    by_cases hfd : fd' = fd
    · rw [hfd, update_self]
      exact hx
    · rw [update_of_ne hfd]
      exact h fd'
  cases a with
  | register fd e events f =>
    simp only [step] at hs
    split at hs
    case isTrue => cases hs
    case isFalse hret =>
      cases hs
      exact hone fd _ (register_good (h fd) (by simpa using hret) _ e events f)
  | disarmOut fd f =>
    cases hs
    exact hone fd _ (disarm_good (h fd) .write f)
  | disarmIn fd f =>
    cases hs
    exact hone fd _ (disarm_good (h fd) .read f)
  | validateArm fd waiter f =>
    cases hs
    exact hone fd _ (validateArm_good (h fd) waiter f)
  | releaseIfIdle fd idle f =>
    cases hs
    exact hone fd _ (releaseIfIdle_good (h fd) idle f)
  | unregister fd =>
    cases hs
    exact hone fd _ (unregister_good (h fd))
  | openFd fd =>
    simp only [step] at hs
    split at hs
    case isTrue => cases hs
    case isFalse =>
      cases hs
      obtain ⟨hcov, halone, hclean, hret, hclosed⟩ := h fd
      exact hone fd _ ⟨hcov, halone, hclean, hret, fun ho => by cases ho⟩
  | closeFd fd =>
    obtain ⟨hret, hs⟩ := Option.ite_none_right_eq_some.mp hs
    cases hs
    exact hone fd _ (good_of_empty ((h fd).retired hret) (fun _ _ _ => rfl) fun _ _ => rfl)

theorem reachable_good {cap : ℕ} {s : ℕ → Entry} (h : Reachable (system cap) s) :
    ∀ fd, Good (s fd) := by
  induction h with
  | start hs =>
    cases hs
    exact fun _ => init_good
  | next _ hs ih => exact step_good ih hs

theorem union_left {a b : Mask} {d : Dir} (h : a d = true) : a.union b d = true := by
  simp [Mask.union, h]

theorem fresh_armed {target : Mask} {f : Faults}
    (h : (x.fresh e target f).2 = true) : (x.fresh e target f).1.armed = target := by
  unfold Entry.fresh at h ⊢
  rcases retry_cases { x with armed := target, owner := e } e (.add target)
    (.mod target) .eexist f rfl rfl with ⟨-, hr⟩ | hr
  · simp [hr]
  · simp [hr] at h

theorem widen_armed {target : Mask} {f : Faults}
    (h : (x.widen target f).2 = true) : (x.widen target f).1.armed = target := by
  unfold Entry.widen at h ⊢
  rcases retry_cases { x with armed := target } x.owner (.mod target) (.add target)
    .enoent f rfl rfl with ⟨-, hr⟩ | hr
  · simp [hr]
  · simp [hr] at h

theorem register_widens (x : Entry) : x.Widens := by
  intro fits e events f hok d hd
  unfold Entry.register at hok ⊢
  split
  case isTrue hempty =>
    rw [isEmpty_iff.mp hempty d] at hd
    cases hd
  case isFalse hne =>
    rw [if_neg hne] at hok
    split
    case isTrue hmig =>
      rw [if_pos hmig] at hok
      rw [fresh_armed hok]
      exact union_left hd
    case isFalse hmig =>
      rw [if_neg hmig] at hok
      split
      case isTrue => exact hd
      case isFalse hle =>
        rw [if_neg hle] at hok
        rw [widen_armed hok]
        exact union_left hd

/-- Whatever the calls of `epoll_ctl` return: what is recorded is in the kernel, in the
recorded instance; unless the fd is spoiled it is in no other one; and a registration
that succeeds keeps what was recorded. -/
theorem cache_sound {cap : ℕ} {s : ℕ → Entry} (h : Reachable (system cap) s) (fd : ℕ) :
    (s fd).Covered ∧ ((s fd).spoiled = false → (s fd).Alone) ∧ (s fd).Widens :=
  ⟨(reachable_good h fd).covered, (reachable_good h fd).alone, register_widens (s fd)⟩

def noFaults : Faults := { del := none, first := none, second := none }

/-- An fd of hub 1 that hub 2 wants too, with an `EPOLL_CTL_MOD` that fails on the way. -/
def migrated : List Act :=
  [.openFd 5, .register 5 (some 1) (.only .read) noFaults,
    .register 5 (some 1) .both { noFaults with first := some .other },
    .register 5 (some 2) (.only .write) noFaults, .disarmOut 5 noFaults]

theorem cache_sound_migrated :
    ∃ s, Reachable (system 16) s ∧ (s 5).armed .read = true ∧ (s 5).owner = none ∧
      (s 5).spoiled = false ∧ (s 5).Covered ∧ ((s 5).spoiled = false → (s 5).Alone) ∧
      (s 5).Widens := by
  have hrun : ((system 16).run (fun _ => Entry.init) migrated).map (fun s =>
      ((s 5).armed .read, (s 5).owner, (s 5).spoiled)) = some (true, none, false) := by
    decide +kernel
  obtain ⟨s, hs, hobs⟩ := Option.map_eq_some_iff.mp hrun
  simp only [Prod.mk.injEq] at hobs
  obtain ⟨harmed, howner, hspoiled⟩ := hobs
  have hreach := reachable_of_run (system 16) migrated rfl hs
  exact ⟨s, hreach, harmed, howner, hspoiled, cache_sound hreach 5⟩

/-- The `EPOLL_CTL_DEL` of the migration fails. -/
def leftBehind : List Act :=
  [.openFd 5, .register 5 (some 1) (.only .read) noFaults,
    .register 5 (some 2) (.only .write) { noFaults with del := some .other }]

theorem leftBehind_two_instances :
    ∃ s, Reachable (system 16) s ∧ (s 5).owner = none ∧ (s 5).kernel none ≠ none ∧
      (s 5).kernel (some 1) ≠ none ∧ ¬ (s 5).Alone := by
  have hrun : ((system 16).run (fun _ => Entry.init) leftBehind).map (fun s =>
      ((s 5).owner, ((s 5).kernel none).isSome, ((s 5).kernel (some 1)).isSome,
        (s 5).armed.isEmpty)) = some (none, true, true, false) := by
    decide +kernel
  obtain ⟨s, hs, hobs⟩ := Option.map_eq_some_iff.mp hrun
  simp only [Prod.mk.injEq, Option.isSome_iff_ne_none] at hobs
  obtain ⟨howner, hshared, hone, harmed⟩ := hobs
  refine ⟨s, reachable_of_run (system 16) leftBehind rfl hs, howner, hshared, hone, fun hal => ?_⟩
  exact hone (hal harmed (some 1) (by rw [howner]; simp))

end Stackweave.Netpoll.ArmCache
