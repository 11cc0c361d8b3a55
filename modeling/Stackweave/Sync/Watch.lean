import Mathlib.Data.Int.Notation
import Mathlib.Data.List.Nodup
import Mathlib.Order.Basic
import Stackweave.Transition
import Stackweave.Wakeup

/-!
# `Watch` (`sync.py`)

Any number of fibers in `set` and `wait_changed`. A call is named by a number, which also
stands for its fiber in `_waiters`. What is done under `_mu` is one step. A park returns
when the fiber was woken, and may also return at any time, as it does when its timeout
is over. A waiter puts itself on the list once; `set` takes everybody off. A waiter whose
`seen_version` is ahead of the version is then off the list and parks again, so what follows
holds in the runs in which no `wait_changed` asks for a version that is still to come.
-/

namespace Stackweave.Sync.Watch

open Transition Wakeup Function

variable {V : Type}

/-- The fields of a `Watch`. -/
structure Guarded (V : Type) where
  value : V
  version : ℕ
  waiters : List ℕ

/-- What a call does next. `final` in `timedOut` is the version at its last check. -/
inductive Pc (V : Type)
  | idle
  | setting (value : V)
  | waking (gs : List ℕ)
  | setDone
  | entering (seen : ℤ) (deadline : Option ℤ)
  /-- at the head of the loop, its fiber put on `_waiters` -/
  | looping (seen : ℤ) (deadline : Option ℤ)
  | parked (seen : ℤ) (deadline : Option ℤ)
  | rechecking (seen : ℤ) (deadline : Option ℤ)
  /-- `remaining <= 0` -/
  | expiring (seen : ℤ)
  | changed (seen : ℤ) (value : V) (version : ℕ)
  | timedOut (seen : ℤ) (final : ℕ)

/-- `now` is the monotonic clock. `published` is history: what the calls of `set` stored. -/
structure State (V : Type) where
  watch : Guarded V
  pc : ℕ → Pc V
  woken : ℕ → Bool
  now : ℤ
  published : List (V × ℕ)

def init (value : V) : State V :=
  { watch := ⟨value, 0, []⟩, pc := fun _ => .idle, woken := fun _ => false, now := 0
    published := [] }

/-! ## The guarded sections -/

def Guarded.set (w : Guarded V) (value : V) : Guarded V × Pc V :=
  ({ value, version := w.version + 1, waiters := [] }, .waking w.waiters)

def Guarded.enter (w : Guarded V) (g : ℕ) (seen : ℤ) (deadline : Option ℤ) : Guarded V × Pc V :=
  if seen < w.version then (w, .changed seen w.value w.version)
  else ({ w with waiters := w.waiters ++ [g] }, .looping seen deadline)

/-- The check after a park. -/
def Guarded.recheck (w : Guarded V) (g : ℕ) (seen : ℤ) (deadline : Option ℤ) : Guarded V × Pc V :=
  if seen < w.version then ({ w with waiters := w.waiters.erase g }, .changed seen w.value w.version)
  else (w, .looping seen deadline)

/-- The check when the time is up. -/
def Guarded.expire (w : Guarded V) (g : ℕ) (seen : ℤ) : Guarded V × Pc V :=
  ({ w with waiters := w.waiters.erase g },
    if seen < w.version then .changed seen w.value w.version else .timedOut seen w.version)

/-! ## The steps -/

inductive Action (V : Type)
  | set (n : ℕ) (value : V)
  | waitChanged (n : ℕ) (seen : ℤ) (timeout : Option ℤ)
  | caller (n : ℕ)
  | resume (n : ℕ)
  | spurious (n : ℕ)
  | tick (d : ℕ)

def State.goto (s : State V) (n : ℕ) (q : Pc V) : State V :=
  { s with pc := Function.update s.pc n q }

def State.enter (s : State V) (n : ℕ) (r : Guarded V × Pc V) : State V :=
  { s.goto n r.2 with watch := r.1 }

/-- `remaining <= 0` -/
def expired (now : ℤ) : Option ℤ → Bool
  | none => false
  | some t => t - now ≤ 0

def callerStep (s : State V) (n : ℕ) : Option (State V) :=
  match s.pc n with
  | .setting v =>
    some { s.enter n (s.watch.set v) with published := s.published ++ [(v, s.watch.version + 1)] }
  | .waking [] => some (s.goto n .setDone)
  | .waking (g :: gs) =>
    some { s.goto n (.waking gs) with woken := Function.update s.woken g true }
  | .entering seen d => some (s.enter n (s.watch.enter n seen d))
  | .looping seen d =>
    some (s.goto n (if expired s.now d then .expiring seen else .parked seen d))
  | .rechecking seen d => some (s.enter n (s.watch.recheck n seen d))
  | .expiring seen => some (s.enter n (s.watch.expire n seen))
  | _ => none

@[grind =]
def step (s : State V) : Action V → Option (State V)
  | .set n v =>
    match s.pc n with
    | .idle => some (s.goto n (.setting v))
    | _ => none
  | .waitChanged n seen timeout =>
    match s.pc n with
    | .idle => some (s.goto n (.entering seen (timeout.map (s.now + ·))))
    | _ => none
  | .caller n => callerStep s n
  | .resume n =>
    match s.pc n with
    | .parked seen d =>
      if s.woken n then
        some { s.goto n (.rechecking seen d) with woken := Function.update s.woken n false }
      else none
    | _ => none
  | .spurious n =>
    match s.pc n with
    | .parked seen d => some (s.goto n (.rechecking seen d))
    | _ => none
  | .tick d => some { s with now := s.now + d }

def system (value : V) : System (State V) (Action V) where
  init s := s = init value
  step := step

/-- A `wait_changed` that looks for the first time asks for a change of a version that was
reached. -/
def current (s : State V) : Action V → Bool
  | .caller n =>
    match s.pc n with
    | .entering seen _ => seen ≤ s.watch.version
    | _ => true
  | _ => true

/-! ## What a step can do -/

/-- The call has put its fiber on the list and not taken it off. -/
def Pc.queued : Pc V → Bool
  | .looping _ _ | .parked _ _ | .rechecking _ _ | .expiring _ => true
  | _ => false

/-- The `seen_version` of a call that is going to look at the version after a park. -/
def Pc.waits : Pc V → Option ℤ
  | .looping seen _ | .parked seen _ | .rechecking seen _ => some seen
  | _ => none

/-- The same for a call that goes to its park, or is parked. -/
def Pc.blocked : Pc V → Option ℤ
  | .looping seen _ | .parked seen _ => some seen
  | _ => none

def Pc.wakes : Pc V → List ℕ
  | .waking gs => gs
  | _ => []

def Pc.idleNext : Pc V → Bool
  | .setting _ | .entering _ _ => true
  | _ => false

/-- The steps of the calls, with what the code has checked in each; a call that registers
asks for a change of the version as it is. -/
inductive Move (s : State V) : State V → Prop
  | call {n : ℕ} {q : Pc V} (hn : s.pc n = .idle) (hq : q.idleNext = true) : Move s (s.goto n q)
  | set {n : ℕ} {v : V} (hn : s.pc n = .setting v) :
    Move s { s.goto n (.waking s.watch.waiters) with
      watch := { value := v, version := s.watch.version + 1, waiters := [] }
      published := s.published ++ [(v, s.watch.version + 1)] }
  | wake {n g : ℕ} {gs : List ℕ} (hn : s.pc n = .waking (g :: gs)) :
    Move s { s.goto n (.waking gs) with woken := Function.update s.woken g true }
  | setDone {n : ℕ} (hn : s.pc n = .waking []) : Move s (s.goto n .setDone)
  | hit {n : ℕ} {seen : ℤ} {d : Option ℤ} (hn : s.pc n = .entering seen d)
      (hv : seen < s.watch.version) : Move s (s.goto n (.changed seen s.watch.value s.watch.version))
  | register {n : ℕ} {seen : ℤ} {d : Option ℤ} (hn : s.pc n = .entering seen d)
      (hv : (s.watch.version : ℤ) = seen) :
    Move s { s.goto n (.looping seen d) with
      watch := { s.watch with waiters := s.watch.waiters ++ [n] } }
  | park {n : ℕ} {seen : ℤ} {d : Option ℤ} (hn : s.pc n = .looping seen d) :
    Move s (s.goto n (.parked seen d))
  | late {n : ℕ} {seen : ℤ} {d : Option ℤ} (hn : s.pc n = .looping seen d) :
    Move s (s.goto n (.expiring seen))
  | resume {n : ℕ} {seen : ℤ} {d : Option ℤ} {b : Bool} (hn : s.pc n = .parked seen d) :
    Move s { s.goto n (.rechecking seen d) with woken := Function.update s.woken n b }
  | again {n : ℕ} {seen : ℤ} {d : Option ℤ} (hn : s.pc n = .rechecking seen d)
      (hv : s.watch.version ≤ seen) : Move s (s.goto n (.looping seen d))
  | changed {n : ℕ} {seen : ℤ} (hn : (s.pc n).queued = true) (hv : seen < s.watch.version) :
    Move s { s.goto n (.changed seen s.watch.value s.watch.version) with
      watch := { s.watch with waiters := s.watch.waiters.erase n } }
  | timeOut {n : ℕ} {seen : ℤ} (hn : s.pc n = .expiring seen) (hv : s.watch.version ≤ seen) :
    Move s { s.goto n (.timedOut seen s.watch.version) with
      watch := { s.watch with waiters := s.watch.waiters.erase n } }
  | tick {d : ℤ} : Move s { s with now := d }

section Move

variable {s t : State V} {n : ℕ}

theorem callerStep_move (hok : current s (.caller n) = true) (hs : callerStep s n = some t) :
    Move s t := by
  unfold callerStep at hs
  split at hs
  case h_1 hn =>
    cases hs
    exact .set hn
  case h_2 hn =>
    cases hs
    exact .setDone hn
  case h_3 hn =>
    cases hs
    exact .wake hn
  case h_4 seen d hn =>
    cases hs
    unfold Guarded.enter
    split
    case isTrue hv => exact .hit hn hv
    case isFalse hv =>
      have hle : seen ≤ (s.watch.version : ℤ) := by simpa [current, hn] using hok
      exact .register hn (Int.le_antisymm (Int.not_lt.mp hv) hle)
  case h_5 hn =>
    cases hs
    split
    case isTrue => exact .late hn
    case isFalse => exact .park hn
  case h_6 hn =>
    cases hs
    unfold Guarded.recheck
    split
    case isTrue hv => exact .changed (by rw [hn]; rfl) hv
    case isFalse hv => exact .again hn (Int.not_lt.mp hv)
  case h_7 hn =>
    cases hs
    unfold Guarded.expire
    split
    case isTrue hv => exact .changed (by rw [hn]; rfl) hv
    case isFalse hv => exact .timeOut hn (Int.not_lt.mp hv)
  case h_8 => cases hs

theorem step_move {a : Action V} (hok : current s a = true) (hs : step s a = some t) : Move s t := by
  cases a with
  | set n v =>
    dsimp only [step] at hs
    split at hs
    case h_1 hn =>
      cases hs
      exact .call hn rfl
    case h_2 => cases hs
  | waitChanged n seen timeout =>
    dsimp only [step] at hs
    split at hs
    case h_1 hn =>
      cases hs
      exact .call hn rfl
    case h_2 => cases hs
  | caller n => exact callerStep_move hok hs
  | resume n =>
    dsimp only [step] at hs
    split at hs
    case h_1 hn =>
      obtain ⟨-, hs⟩ := Option.ite_none_right_eq_some.mp hs
      cases hs
      exact .resume hn
    case h_2 => cases hs
  | spurious n =>
    dsimp only [step] at hs
    split at hs
    case h_1 seen d hn =>
      cases hs
      have hm : Move s { s.goto n (.rechecking seen d) with
          woken := update s.woken n (s.woken n) } := .resume hn
      rw [update_eq_self] at hm
      exact hm
    case h_2 => cases hs
  | tick d =>
    cases hs
    exact .tick

end Move

/-! ## The invariant -/

/-- The wake-up of the call has been made, or a `set` is going to make it. -/
def PendingWake (s : State V) : ℕ → Prop := Pending Pc.wakes s.pc s.woken

/-- The pair was stored by a `set`, or by the constructor. -/
def Stored (first : V) (s : State V) (v : V) (version : ℕ) : Prop :=
  (v, version) ∈ s.published ∨ (version = 0 ∧ v = first)

structure Inv (first : V) (s : State V) : Prop where
  stored : Stored first s s.watch.value s.watch.version
  changed : ∀ n seen v version, s.pc n = .changed seen v version →
    seen < version ∧ Stored first s v version
  timedOut : ∀ n seen final, s.pc n = .timedOut seen final → (final : ℤ) ≤ seen
  nodup : s.watch.waiters.Nodup
  queued : ∀ n ∈ s.watch.waiters, (s.pc n).queued = true
  waits : ∀ n seen, (s.pc n).waits = some seen → (s.watch.version : ℤ) ≤ seen →
    (s.watch.version : ℤ) = seen ∧ n ∈ s.watch.waiters
  blocked : ∀ n seen, (s.pc n).blocked = some seen → seen < s.watch.version → PendingWake s n

section Steps

variable {first : V} {s t : State V} {n : ℕ} {q : Pc V}

theorem Stored.mono {v : V} {version : ℕ} (h : Stored first s v version)
    (hp : ∀ x ∈ s.published, x ∈ t.published) : Stored first t v version :=
  h.imp_left (hp _)

/-- A call moves; the cell keeps its value, and of the list goes at most the call itself. -/
theorem Inv.move (hi : Inv first s) (hpc : t.pc = update s.pc n q)
    (hvalue : t.watch.value = s.watch.value) (hversion : t.watch.version = s.watch.version)
    (hpublished : t.published = s.published) (hnodup : t.watch.waiters.Nodup)
    (hchanged : ∀ seen v version, q = .changed seen v version →
      seen < version ∧ Stored first s v version)
    (htimed : ∀ seen final, q = .timedOut seen final → (final : ℤ) ≤ seen)
    (hsub : ∀ m ∈ t.watch.waiters, m ≠ n → m ∈ s.watch.waiters)
    (hstay : ∀ m ∈ s.watch.waiters, m ≠ n → m ∈ t.watch.waiters)
    (hqueued : n ∈ t.watch.waiters → q.queued = true)
    (hwaits : ∀ seen, q.waits = some seen → (s.watch.version : ℤ) ≤ seen →
      (s.watch.version : ℤ) = seen ∧ n ∈ t.watch.waiters)
    (hblocked : ∀ seen, q.blocked = some seen → seen < s.watch.version → PendingWake s n)
    (hpending : ∀ m, (m = n → q.blocked ≠ none) → PendingWake s m → PendingWake t m) :
    Inv first t := by
  have hstored : ∀ {v : V} {version : ℕ}, Stored first s v version → Stored first t v version :=
    fun h => h.mono fun x hx => by rw [hpublished]; exact hx
  have hself : t.pc n = q := by rw [hpc, update_self]
  have hother : ∀ m, m ≠ n → t.pc m = s.pc m := fun m hm => by rw [hpc, update_of_ne hm]
  refine ⟨?_, fun m seen v version hm => ?_, fun m seen final hm => ?_, hnodup, fun m hm => ?_,
    fun m seen hm hv => ?_, fun m seen hm hv => ?_⟩
  · rw [hvalue, hversion]
    exact hstored hi.stored
  · have hold : seen < version ∧ Stored first s v version := by
      by_cases hmn : m = n
      · rw [hmn, hself] at hm
        exact hchanged seen v version hm
      · rw [hother m hmn] at hm
        exact hi.changed m seen v version hm
    exact ⟨hold.1, hstored hold.2⟩
  · by_cases hmn : m = n
    · rw [hmn, hself] at hm
      exact htimed seen final hm
    · rw [hother m hmn] at hm
      exact hi.timedOut m seen final hm
  · by_cases hmn : m = n
    · rw [hmn, hself]
      exact hqueued (hmn ▸ hm)
    · rw [hother m hmn]
      exact hi.queued m (hsub m hm hmn)
  · rw [hversion] at hv ⊢
    by_cases hmn : m = n
    · rw [hmn, hself] at hm
      rw [hmn]
      exact hwaits seen hm hv
    · rw [hother m hmn] at hm
      obtain ⟨he, hmem⟩ := hi.waits m seen hm hv
      exact ⟨he, hstay m hmem hmn⟩
  · rw [hversion] at hv
    by_cases hmn : m = n
    · rw [hmn, hself] at hm
      rw [hmn]
      exact hpending n (fun _ => by rw [hm]; nofun) (hblocked seen hm hv)
    · rw [hother m hmn] at hm
      exact hpending m (fun he => absurd he hmn) (hi.blocked m seen hm hv)

/-- The same for a call that leaves the list alone and has nobody to wake. -/
theorem Inv.goto (hi : Inv first s) (hold : (s.pc n).wakes = [])
    (hchanged : ∀ seen v version, q = .changed seen v version →
      seen < version ∧ Stored first s v version)
    (htimed : ∀ seen final, q ≠ .timedOut seen final)
    (hqueued : n ∈ s.watch.waiters → q.queued = true)
    (hwaits : ∀ seen, q.waits = some seen → (s.pc n).waits = some seen)
    (hblocked : ∀ seen, q.blocked = some seen →
      (s.pc n).blocked = some seen ∨ (s.watch.version : ℤ) ≤ seen) : Inv first (s.goto n q) := by
  refine hi.move rfl rfl rfl rfl hi.nodup hchanged (fun seen final he => absurd he (htimed seen final))
    (fun _ hm _ => hm) (fun _ hm _ => hm) hqueued (fun seen hq => hi.waits n seen (hwaits seen hq))
    (fun seen hq hv => ?_) fun m _ hp => ?_
  · rcases hblocked seen hq with hb | hle
    · exact hi.blocked n seen hb hv
    · exact absurd hv (Int.not_lt.mpr hle)
  · refine hp.goto rfl (fun g hg => ?_) id
    rw [hold] at hg
    cases hg

/-- A call that is not on its way to or from a park is not on the list. -/
theorem Inv.not_queued (hi : Inv first s) (hn : (s.pc n).queued = false) : n ∉ s.watch.waiters := by
  intro hmem
  rw [hi.queued n hmem] at hn
  cases hn

theorem Inv.set (hi : Inv first s) {v : V} (hn : s.pc n = .setting v) :
    Inv first { s.goto n (.waking s.watch.waiters) with
      watch := { value := v, version := s.watch.version + 1, waiters := [] }
      published := s.published ++ [(v, s.watch.version + 1)] } := by
  have hself : update s.pc n (.waking s.watch.waiters) n = .waking s.watch.waiters :=
    update_self ..
  have hother : ∀ m, m ≠ n → update s.pc n (.waking s.watch.waiters) m = s.pc m :=
    fun m hm => update_of_ne hm ..
  have hnew : (v, s.watch.version + 1) ∈ s.published ++ [(v, s.watch.version + 1)] :=
    List.mem_append_right _ (List.mem_singleton_self _)
  refine ⟨.inl hnew, fun m seen v' version hm => ?_, fun m seen final hm => ?_, List.nodup_nil,
    fun m hm => ?_, fun m seen hm hv => ?_, fun m seen hm hv => ?_⟩
  all_goals dsimp only [State.goto] at *
  · have hmn : m ≠ n := by
      rintro rfl
      rw [hself] at hm
      cases hm
    rw [hother m hmn] at hm
    obtain ⟨hlt, hst⟩ := hi.changed m seen v' version hm
    exact ⟨hlt, hst.mono fun x hx => List.mem_append_left _ hx⟩
  · have hmn : m ≠ n := by
      rintro rfl
      rw [hself] at hm
      cases hm
    rw [hother m hmn] at hm
    exact hi.timedOut m seen final hm
  · cases hm
  · -- whoever waits saw the version from before, or an older one
    have hmn : m ≠ n := by
      rintro rfl
      rw [hself] at hm
      cases hm
    rw [hother m hmn] at hm
    obtain ⟨he, -⟩ := hi.waits m seen hm (by omega)
    omega
  · have hmn : m ≠ n := by
      rintro rfl
      rw [hself] at hm
      cases hm
    rw [hother m hmn] at hm
    by_cases hold : seen < s.watch.version
    · exact (hi.blocked m seen hm hold).goto rfl (by rw [hn]; exact fun _ hg => nomatch hg) id
    · have hw : (s.pc m).waits = some seen := by
        cases hp : s.pc m with
        | looping | parked =>
          rw [hp] at hm
          exact hm
        | _ =>
          rw [hp] at hm
          cases hm
      exact .of_mem rfl (hi.waits m seen hw (Int.not_lt.mp hold)).2

/-- A call takes itself off the list and is over. -/
theorem Inv.leave (hi : Inv first s) (hold : (s.pc n).queued = true)
    (hw : q.waits = none) (hb : q.blocked = none)
    (hchanged : ∀ seen v version, q = .changed seen v version →
      seen < version ∧ Stored first s v version)
    (htimed : ∀ seen final, q = .timedOut seen final → (final : ℤ) ≤ seen) :
    Inv first { s.goto n q with watch := { s.watch with waiters := s.watch.waiters.erase n } } := by
  refine hi.move rfl rfl rfl rfl (hi.nodup.erase n) hchanged htimed
    (fun m hm _ => List.mem_of_mem_erase hm) (fun m hm hmn => (List.mem_erase_of_ne hmn).mpr hm)
    (fun hm => absurd hm (List.Nodup.not_mem_erase hi.nodup)) (fun seen h => ?_) (fun seen h => ?_)
    fun m _ hp => ?_
  · rw [hw] at h
    cases h
  · rw [hb] at h
    cases h
  · refine hp.goto rfl (fun g hg => ?_) id
    cases hp' : s.pc n with
    | waking gs =>
      rw [hp'] at hold
      cases hold
    | _ =>
      rw [hp'] at hg
      cases hg

theorem Inv.step (hi : Inv first s) (hm : Move s t) : Inv first t := by
  cases hm with
  | @call n q hn hq =>
    have hout := hi.not_queued (n := n) (by rw [hn]; rfl)
    refine hi.goto (by rw [hn]; rfl) ?_ ?_ (fun hm => absurd hm hout) ?_ ?_
    all_goals cases q with
    | setting | entering => exact nofun
    | _ => cases hq
  | set hn => exact hi.set hn
  | @wake n g gs hn =>
    have hout := hi.not_queued (n := n) (by rw [hn]; rfl)
    refine hi.move (q := .waking gs) rfl rfl rfl rfl hi.nodup (by intros; contradiction) (by intros; contradiction) (fun _ hm _ => hm)
      (fun _ hm _ => hm) (fun hm => absurd hm hout) (by intros; contradiction) (by intros; contradiction) fun m _ hp => ?_
    refine hp.wake (q := .waking gs) rfl (fun x hx => ?_) rfl
    rw [hn] at hx
    exact List.mem_cons.mp hx
  | @setDone n hn =>
    have hout := hi.not_queued (n := n) (by rw [hn]; rfl)
    exact hi.goto (by rw [hn]; rfl) nofun nofun (fun hm => absurd hm hout) nofun nofun
  | @hit n seen d hn hv =>
    have hout := hi.not_queued (n := n) (by rw [hn]; rfl)
    refine hi.goto (by rw [hn]; rfl) (fun seen' v version he => ?_) nofun (fun hm => absurd hm hout)
      nofun nofun
    cases he
    exact ⟨hv, hi.stored⟩
  | @register n seen d hn hv =>
    have hout := hi.not_queued (n := n) (by rw [hn]; rfl)
    refine hi.move (q := .looping seen d) rfl rfl rfl rfl ?_ (by intros; contradiction) (by intros; contradiction) (fun m hm hmn => ?_)
      (fun m hm _ => List.mem_append_left _ hm) (fun _ => rfl) (fun seen' he _ => ?_)
      (fun seen' he hlt => ?_) fun m _ hp => ?_
    · exact List.nodup_append_comm.mp (List.nodup_cons.mpr ⟨hout, hi.nodup⟩)
    · exact (List.mem_append.mp hm).resolve_right fun he => hmn (List.mem_singleton.mp he)
    · cases he
      exact ⟨hv, List.mem_append_right _ (List.mem_singleton_self n)⟩
    · cases he
      omega
    · exact hp.goto rfl (by rw [hn]; exact fun _ hg => nomatch hg) id
  | park hn =>
    exact hi.goto (by rw [hn]; rfl) nofun nofun (fun _ => rfl) (fun seen' he => by rw [hn]; exact he)
      fun seen' he => .inl (by rw [hn]; exact he)
  | late hn => exact hi.goto (by rw [hn]; rfl) nofun nofun (fun _ => rfl) nofun nofun
  | @resume n seen d b hn =>
    refine hi.move (q := .rechecking seen d) rfl rfl rfl rfl hi.nodup (by intros; contradiction) (by intros; contradiction) (fun _ hm _ => hm)
      (fun _ hm _ => hm) (fun _ => rfl) (fun seen' he => ?_) (by intros; contradiction) fun m hmn hp => ?_
    · exact hi.waits n seen' (by rw [hn]; exact he)
    · have hne : m ≠ n := fun he => hmn he rfl
      refine hp.goto rfl (by rw [hn]; exact fun _ hg => nomatch hg) fun hw => ?_
      exact (update_of_ne hne ..).trans hw
  | again hn hv =>
    refine hi.goto (by rw [hn]; rfl) nofun nofun (fun _ => rfl) (fun seen' he => by rw [hn]; exact he)
      fun seen' he => .inr ?_
    cases he
    exact hv
  | changed hn hv =>
    refine hi.leave hn rfl rfl (fun seen' v version he => ?_) (by intros; contradiction)
    cases he
    exact ⟨hv, hi.stored⟩
  | timeOut hn hv =>
    refine hi.leave (by rw [hn]; rfl) rfl rfl (by intros; contradiction) fun seen' final he => ?_
    cases he
    exact hv
  | tick => exact ⟨hi.stored, hi.changed, hi.timedOut, hi.nodup, hi.queued, hi.waits, hi.blocked⟩

end Steps

theorem inv_init (first : V) : Inv first (init first) := by
  refine ⟨.inr ⟨rfl, rfl⟩, ?_, ?_, List.nodup_nil, ?_, ?_, ?_⟩
  · exact fun _ _ _ _ h => nomatch h
  · exact fun _ _ _ h => nomatch h
  · exact fun _ h => nomatch h
  · exact fun _ _ h => nomatch h
  · exact fun _ _ h => nomatch h

theorem reachable_inv {first : V} {s : State V}
    (h : Reachable ((system first).restrict fun s a => current s a = true) s) : Inv first s := by
  refine h.invariant ?_ fun s a t _ hi hs => ?_
  · rintro s rfl
    exact inv_init first
  · obtain ⟨hok, hs⟩ := System.restrict_step.mp hs
    exact hi.step (step_move hok hs)

/-- In every run in which no `wait_changed` asks for a version that is still to come: what
it returns is a value that was stored together with that version, past the one seen (by
`set`, unless it is the first value and a negative version was seen); it times out only
where the version was not past the one seen at its last check; while no `set` is in progress
every blocked call that has a change to see was woken; and a call that is over is not on
the list. -/
theorem watch_misses_nothing {first : V} {s : State V}
    (h : Reachable ((system first).restrict fun s a => current s a = true) s) :
    (∀ n seen v version, s.pc n = .changed seen v version → seen < version ∧
      ((v, version) ∈ s.published ∨ (version = 0 ∧ v = first ∧ seen < 0))) ∧
    (∀ n seen final, s.pc n = .timedOut seen final → (final : ℤ) ≤ seen) ∧
    ((∀ m gs, s.pc m ≠ .waking gs) →
      ∀ n seen, (s.pc n).blocked = some seen → seen < s.watch.version → s.woken n = true) ∧
    (∀ n, (s.pc n).queued = false → n ∉ s.watch.waiters) := by
  have hi := reachable_inv h
  refine ⟨fun n seen v version hn => ?_, hi.timedOut, fun hno n seen hn hv => ?_,
    fun n => hi.not_queued⟩
  · obtain ⟨hlt, hst⟩ := hi.changed n seen v version hn
    refine ⟨hlt, hst.imp_right fun ⟨h0, hv⟩ => ⟨h0, hv, ?_⟩⟩
    rw [h0] at hlt
    exact hlt
  · rcases hi.blocked n seen hn hv with hw | ⟨m, hm⟩
    · exact hw
    · cases hp : s.pc m with
      | waking gs => exact absurd hp (hno m gs)
      | _ =>
        rw [hp] at hm
        cases hm

/-- A waiter for a change of version 0, whose park returned once before there was any, is
woken by the first of two calls of `set`. -/
theorem watch_misses_nothing_woken :
    ∃ s : State ℕ, Reachable ((system 4).restrict fun s a => current s a = true) s ∧
      (s.pc 0).blocked = some 0 ∧ s.watch.version = 2 ∧ s.woken 0 = true := by
  obtain ⟨s, hs, hb, hv, h1, h2⟩ : ∃ s, ((system 4).restrict fun s a => current s a = true).run (init 4)
      [.waitChanged 0 0 none, .caller 0, .caller 0, .spurious 0, .caller 0, .set 1 5, .caller 1,
       .caller 1, .caller 1, .set 2 6, .caller 2, .caller 2] = some s ∧
      (s.pc 0).blocked = some 0 ∧ s.watch.version = 2 ∧ s.pc 1 = .setDone ∧ s.pc 2 = .setDone ∧
      ∀ m, s.pc (m + 3) = .idle := ⟨_, rfl, rfl, rfl, rfl, rfl, fun _ => rfl⟩
  have hr := reachable_of_run _ _ rfl hs
  refine ⟨s, hr, hb, hv, (watch_misses_nothing hr).2.2.1 (fun m gs hm => ?_) 0 0 hb (by rw [hv]; decide)⟩
  rcases m with _ | _ | _ | m
  · rw [hm] at hb
    cases hb
  · rw [h1] at hm
    cases hm
  · rw [h2.1] at hm
    cases hm
  · rw [h2.2 m] at hm
    cases hm

/-- The waiter asks for a version past 1 while the version is 0. The first `set` takes it off
the list and wakes it; it parks again, and the second `set`, which brings version 2, wakes
nobody. -/
theorem watch_strands_waiter :
    ∃ s : State ℕ, Reachable (system 4) s ∧ (s.pc 0).blocked = some 1 ∧
      (1 : ℤ) < s.watch.version ∧ (∀ m gs, s.pc m ≠ .waking gs) ∧ s.woken 0 = false ∧
      s.watch.waiters = [] := by
  obtain ⟨s, hs, hb, hv, hw, hl, h1, h2, h3⟩ : ∃ s, (system 4).run (init 4)
      [.waitChanged 0 1 none, .caller 0, .caller 0, .set 1 5, .caller 1, .caller 1, .caller 1,
       .resume 0, .caller 0, .caller 0, .set 2 6, .caller 2, .caller 2] = some s ∧
      (s.pc 0).blocked = some 1 ∧ s.watch.version = 2 ∧ s.woken 0 = false ∧ s.watch.waiters = [] ∧
      s.pc 1 = .setDone ∧ s.pc 2 = .setDone ∧ ∀ m, s.pc (m + 3) = .idle :=
    ⟨_, rfl, rfl, rfl, rfl, rfl, rfl, rfl, fun _ => rfl⟩
  refine ⟨s, reachable_of_run _ _ rfl hs, hb, by rw [hv]; decide, fun m gs hm => ?_, hw, hl⟩
  rcases m with _ | _ | _ | m
  · rw [hm] at hb
    cases hb
  · rw [h1] at hm
    cases hm
  · rw [h2] at hm
    cases hm
  · rw [h3 m] at hm
    cases hm

end Stackweave.Sync.Watch
