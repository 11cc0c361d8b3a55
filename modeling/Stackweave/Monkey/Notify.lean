import Mathlib.Data.List.Nodup
import Mathlib.Tactic.Common
import Stackweave.Monkey.Condition

/-!
# Who a notify releases

`CoCondition` with a history: the calls of `wait`, numbered as they begin, the depth of the
lock and the timeout of each, the call that a parker belongs to, the calls that a
notify has popped, what each notify found and popped, and how the calls returned.
The history follows the steps of the condition and changes none of them.

A wait whose park returns without a notify and before its deadline goes to the end
of the queue with a new parker, behind the waits that began after it (`overtaken`).
-/

namespace Stackweave.Monkey.Condition

open Transition Function

/-- How a `wait` returned: whether its caller held the lock, and how deep. -/
structure Return where
  call : ℕ
  result : Bool
  held : Bool
  depth : ℕ

/-- What a notify was asked for, what it found queued and what it popped. -/
structure Round where
  asked : ℕ
  queued : List ℕ
  woke : List ℕ

/-- `call` is the newest call of each caller, `owner` the call of each parker; `asked` and
`snapshot` are of the newest notify of each caller. -/
structure Trace where
  calls : ℕ
  call : ℕ → ℕ
  depth : ℕ → ℕ
  timed : ℕ → Bool
  owner : ℕ → ℕ
  popped : List ℕ
  asked : ℕ → ℕ
  snapshot : ℕ → List ℕ
  rounds : List Round
  returns : List Return

def Trace.init : Trace :=
  ⟨0, fun _ => 0, fun _ => 0, fun _ => false, fun _ => 0, [], fun _ => 0, fun _ => [], [], []⟩

/-- A notify of the caller is over. -/
def Trace.close (h : Trace) (n : ℕ) (woke : List ℕ) : Trace :=
  { h with rounds := h.rounds ++ [⟨h.asked n, h.snapshot n, woke⟩] }

def Trace.pop (h : Trace) (ps : List ℕ) : Trace :=
  { h with popped := h.popped ++ ps.map h.owner }

/-- The step of a caller, from `s` to `t`. -/
def Trace.caller (h : Trace) (s t : State) (n : ℕ) : Trace :=
  match s.pc n with
  | .build _ => { h with owner := Function.update h.owner s.parkers (h.call n) }
  | .restore _ result =>
    { h with returns := h.returns ++ [⟨h.call n, result, t.holder == some n, t.count⟩] }
  | .notify 0 woke => h.close n woke
  | .notify (_ + 1) woke =>
    match s.waiters with
    | [] => h.close n woke
    | p :: _ => h.pop [p]
  | _ => h

def Trace.record (h : Trace) (s t : State) : Action → Trace
  | .wait n timed =>
    { h with
      calls := h.calls + 1
      call := Function.update h.call n h.calls
      depth := Function.update h.depth h.calls s.count
      timed := Function.update h.timed h.calls timed }
  | .notify n k =>
    { h with
      asked := Function.update h.asked n k
      snapshot := Function.update h.snapshot n s.waiters }
  | .notifyAll _ =>
    { h.pop s.waiters with
      rounds := h.rounds ++ [⟨s.waiters.length, s.waiters, s.waiters⟩] }
  | .caller n => h.caller s t n
  | _ => h

def traced : System (State × Trace) Action where
  init x := x = (init, Trace.init)
  step x a := (step x.1 a).map fun t => (t, x.2.record x.1 t a)

/-- A wait goes to the end of the queue again, behind a wait that began later. -/
def overtaken (x : State × Trace) : Action → Bool
  | .caller n =>
    match x.1.pc n with
    | .recheck _ => x.1.waiters.any fun p => x.2.call n < x.2.owner p
    | _ => false
  | _ => false

/-- The runs in which no wait is overtaken. -/
def punctual : System (State × Trace) Action :=
  traced.restrict fun x a => overtaken x a = false

/-! ## Where a caller stands -/

def Pc.wait : Pc → Option Wait
  | .build w | .append w _ | .unlock w _ | .park w _ | .release w _ | .relock w _
  | .remove w _ | .recheck w | .restore w _ => some w
  | _ => none

/-- The parker of the turn. -/
def Pc.own : Pc → Option ℕ
  | .append _ p | .unlock _ p | .park _ p | .release _ p | .relock _ p | .remove _ p => some p
  | _ => none

/-- The parker that was queued. -/
def Pc.entry : Pc → Option ℕ
  | .unlock _ p | .park _ p | .release _ p | .relock _ p | .remove _ p => some p
  | _ => none

/-- Nothing of the call is queued, and no notify has popped it. -/
@[grind =]
def Pc.early : Pc → Bool
  | .build _ | .append _ _ | .recheck _ => true
  | _ => false

def Pc.verdict : Pc → Option (Wait × Bool)
  | .restore w result => some (w, result)
  | _ => none

def Pc.notifies : Pc → Option (ℕ × List ℕ)
  | .notify k woke => some (k, woke)
  | _ => none

/-- The caller has the lock. -/
@[grind =]
def Pc.holds : Pc → Bool
  | .outside | .park _ _ | .release _ _ | .relock _ _ => false
  | _ => true

/-- The caller has a turn whose wake is still to come or to be taken. -/
def Pc.sleeps : Pc → Option ℕ
  | .unlock _ p | .park _ p => some p
  | _ => none

structure Inv (s : State) (h : Trace) : Prop where
  holder : ∀ n, (s.pc n).holds = true ↔ s.holder = some n
  call : ∀ n w, (s.pc n).wait = some w → h.call n < h.calls ∧ w.saved = h.depth (h.call n) ∧
    w.timed = h.timed (h.call n)
  distinct : ∀ n m w v, (s.pc n).wait = some w → (s.pc m).wait = some v →
    h.call n = h.call m → n = m
  own : ∀ n p, (s.pc n).own = some p → p < s.parkers ∧ h.owner p = h.call n
  entry : ∀ n p, (s.pc n).entry = some p → (p ∈ s.waiters ↔ h.call n ∉ h.popped)
  queued : ∀ p ∈ s.waiters, ∃ n, (s.pc n).entry = some p
  early : ∀ n, (s.pc n).early = true → h.call n ∉ h.popped
  verdict : ∀ n w r, (s.pc n).verdict = some (w, r) →
    (r = true ↔ h.call n ∈ h.popped) ∧ (r = false → w.timed = true)
  notifies : ∀ n k woke, (s.pc n).notifies = some (k, woke) →
    woke ++ s.waiters = h.snapshot n ∧ woke.length + k = h.asked n
  nodup : s.waiters.Nodup
  once : h.popped.Nodup
  past : ∀ c ∈ h.popped, c < h.calls
  rounds : ∀ x ∈ h.rounds, x.woke = x.queued.take x.asked
  returns : ∀ r ∈ h.returns, r.call < h.calls ∧ (r.result = true ↔ r.call ∈ h.popped) ∧
    r.held = true ∧ r.depth = h.depth r.call ∧ (h.timed r.call = false → r.result = true) ∧
    ∀ n w, (s.pc n).wait = some w → h.call n ≠ r.call
  awake : ∀ n p, (s.pc n).sleeps = some p → p ∈ s.waiters ∨ s.wake p = true ∨
    ∃ m, p ∈ (s.pc m).bound

theorem inv_init : Inv init Trace.init where
  holder := fun _ => iff_of_false (by rintro ⟨⟩) (by rintro ⟨⟩)
  call := by rintro _ _ ⟨⟩
  distinct := by rintro _ _ _ _ ⟨⟩
  own := by rintro _ _ ⟨⟩
  entry := by rintro _ _ ⟨⟩
  queued := by rintro _ ⟨⟩
  early := by rintro _ ⟨⟩
  verdict := by rintro _ _ _ ⟨⟩
  notifies := by rintro _ _ _ ⟨⟩
  nodup := List.nodup_nil
  once := List.nodup_nil
  past := by rintro _ ⟨⟩
  rounds := by rintro _ ⟨⟩
  returns := by rintro _ ⟨⟩
  awake := by rintro _ _ ⟨⟩

/-! ## One caller moves -/

section Moves

variable {s t : State} {h : Trace} {n : ℕ} {q : Pc}

theorem forall_pc {P : ℕ → Pc → Prop} (hpc : t.pc = fun m => if m = n then q else s.pc m)
    (hq : P n q) (hs : ∀ m, m ≠ n → P m (s.pc m)) (m : ℕ) : P m (t.pc m) := by
  rw [hpc]
  by_cases hmn : m = n
  · simpa [hmn] using hq
  · simpa [hmn] using hs m hmn

theorem pc_cases (hpc : t.pc = fun m => if m = n then q else s.pc m) (m : ℕ) :
    m = n ∧ t.pc m = q ∨ m ≠ n ∧ t.pc m = s.pc m := by
  rw [hpc]
  by_cases hmn : m = n
  · exact .inl ⟨hmn, if_pos hmn⟩
  · exact .inr ⟨hmn, if_neg hmn⟩

/-- The lock stays where it is. -/
theorem Inv.holder_same (hi : Inv s h) (hpc : t.pc = fun m => if m = n then q else s.pc m)
    (hholder : t.holder = s.holder) (hq : q.holds = (s.pc n).holds) :
    ∀ m, (t.pc m).holds = true ↔ t.holder = some m := by
  rw [hholder]
  refine forall_pc (P := fun m x => x.holds = true ↔ s.holder = some m) hpc ?_ fun m _ => hi.holder m
  rw [hq]
  exact hi.holder n

theorem Inv.holder_take (hi : Inv s h) (hpc : t.pc = fun m => if m = n then q else s.pc m)
    (hfree : s.holder = none) (hholder : t.holder = some n) (hq : q.holds = true) :
    ∀ m, (t.pc m).holds = true ↔ t.holder = some m := by
  rw [hholder]
  refine forall_pc (P := fun m x => x.holds = true ↔ some n = some m) hpc (iff_of_true hq rfl) ?_
  intro m hmn
  rw [hi.holder m, hfree]
  exact iff_of_false (by rintro ⟨⟩) fun he => hmn (Option.some.inj he).symm

theorem Inv.holder_drop (hi : Inv s h) (hpc : t.pc = fun m => if m = n then q else s.pc m)
    (hheld : (s.pc n).holds = true) (hholder : t.holder = none) (hq : q.holds = false) :
    ∀ m, (t.pc m).holds = true ↔ t.holder = some m := by
  have hn := (hi.holder n).mp hheld
  rw [hholder]
  refine forall_pc (P := fun m x => x.holds = true ↔ none = some m) hpc ?_ ?_
  · rw [hq]
    exact iff_of_false (by rintro ⟨⟩) (by rintro ⟨⟩)
  · intro m hmn
    rw [hi.holder m, hn]
    exact iff_of_false (fun he => hmn (Option.some.inj he).symm) (by rintro ⟨⟩)

/-- The wakes are still made, when the caller has no more to sleep on and no less to wake. -/
theorem Inv.awake_same (hi : Inv s h) (hpc : t.pc = fun m => if m = n then q else s.pc m)
    (hwaiters : t.waiters = s.waiters) (hwake : t.wake = s.wake)
    (hsleeps : ∀ p, q.sleeps = some p → (s.pc n).sleeps = some p)
    (hbound : ∀ p ∈ (s.pc n).bound, p ∈ q.bound) :
    ∀ m p, (t.pc m).sleeps = some p → p ∈ t.waiters ∨ t.wake p = true ∨
      ∃ e, p ∈ (t.pc e).bound := by
  have hold : ∀ m p, (t.pc m).sleeps = some p → (s.pc m).sleeps = some p :=
    forall_pc (P := fun m x => ∀ p, x.sleeps = some p → (s.pc m).sleeps = some p) hpc hsleeps
      fun _ _ _ hp => hp
  have hkeep : ∀ e p, p ∈ (s.pc e).bound → p ∈ (t.pc e).bound :=
    forall_pc (P := fun e x => ∀ p, p ∈ (s.pc e).bound → p ∈ x.bound) hpc hbound fun _ _ _ hp => hp
  intro m p hp
  rw [hwaiters, hwake]
  rcases hi.awake m p (hold m p hp) with hq | hw | ⟨e, he⟩
  · exact .inl hq
  · exact .inr (.inl hw)
  · exact .inr (.inr ⟨e, hkeep e p he⟩)

/-- A step that leaves the queue and the history alone. -/
theorem Inv.move (hi : Inv s h) (hpc : t.pc = fun m => if m = n then q else s.pc m)
    (hwaiters : t.waiters = s.waiters) (hparkers : t.parkers = s.parkers)
    (hholder : ∀ m, (t.pc m).holds = true ↔ t.holder = some m)
    (hwait : ∀ w, q.wait = some w → (s.pc n).wait = some w)
    (hown : ∀ p, q.own = some p → (s.pc n).own = some p)
    (hentry : ∀ p, q.entry = some p → (s.pc n).entry = some p)
    (hkeep : ∀ p, (s.pc n).entry = some p → q.entry = some p ∨ p ∉ s.waiters)
    (hearly : q.early = true → h.call n ∉ h.popped)
    (hverdict : ∀ w r, q.verdict = some (w, r) →
      (r = true ↔ h.call n ∈ h.popped) ∧ (r = false → w.timed = true))
    (hnotifies : ∀ k woke, q.notifies = some (k, woke) →
      woke ++ s.waiters = h.snapshot n ∧ woke.length + k = h.asked n)
    (hawake : ∀ m p, (t.pc m).sleeps = some p → p ∈ t.waiters ∨ t.wake p = true ∨
      ∃ e, p ∈ (t.pc e).bound) : Inv t h := by
  have hold : ∀ m w, (t.pc m).wait = some w → (s.pc m).wait = some w :=
    forall_pc (P := fun m x => ∀ w, x.wait = some w → (s.pc m).wait = some w) hpc hwait
      fun _ _ _ hw => hw
  constructor
  case holder => exact hholder
  case call => exact fun m w hw => hi.call m w (hold m w hw)
  case distinct => exact fun m e w v hm he => hi.distinct m e w v (hold m w hm) (hold e v he)
  case own =>
    rw [hparkers]
    exact forall_pc (P := fun m x => ∀ p, x.own = some p → p < s.parkers ∧ h.owner p = h.call m)
      hpc (fun p hp => hi.own n p (hown p hp)) fun m _ => hi.own m
  case entry =>
    rw [hwaiters]
    exact forall_pc
      (P := fun m x => ∀ p, x.entry = some p → (p ∈ s.waiters ↔ h.call m ∉ h.popped)) hpc
      (fun p hp => hi.entry n p (hentry p hp)) fun m _ => hi.entry m
  case queued =>
    intro p hp
    rw [hwaiters] at hp
    obtain ⟨m, hm⟩ := hi.queued p hp
    refine ⟨m, ?_⟩
    rw [hpc]
    by_cases hmn : m = n
    · rw [hmn] at hm
      simpa [hmn] using (hkeep p hm).resolve_right (fun hn => hn hp)
    · simpa [hmn] using hm
  case early =>
    exact forall_pc (P := fun m x => x.early = true → h.call m ∉ h.popped) hpc hearly
      fun m _ => hi.early m
  case verdict =>
    exact forall_pc (P := fun m x => ∀ w r, x.verdict = some (w, r) →
      (r = true ↔ h.call m ∈ h.popped) ∧ (r = false → w.timed = true)) hpc hverdict
      fun m _ => hi.verdict m
  case notifies =>
    rw [hwaiters]
    exact forall_pc (P := fun m x => ∀ k woke, x.notifies = some (k, woke) →
      woke ++ s.waiters = h.snapshot m ∧ woke.length + k = h.asked m) hpc hnotifies
      fun m _ => hi.notifies m
  case nodup => rw [hwaiters]; exact hi.nodup
  case once => exact hi.once
  case past => exact hi.past
  case rounds => exact hi.rounds
  case returns =>
    intro r hr
    obtain ⟨hlt, hres, hheld, hdepth, htimed, hother⟩ := hi.returns r hr
    exact ⟨hlt, hres, hheld, hdepth, htimed, fun m w hw => hother m w (hold m w hw)⟩
  case awake => exact hawake

/-- Only one caller has the lock. -/
theorem Inv.alone (hi : Inv s h) {m : ℕ} (hn : (s.pc n).holds = true)
    (hm : (s.pc m).holds = true) : m = n := by
  have he := (hi.holder m).mp hm
  rw [(hi.holder n).mp hn] at he
  exact (Option.some.inj he).symm

variable {x : Pc} {p : ℕ} {w : Wait}

theorem wait_of_own (hx : x.own = some p) : ∃ w, x.wait = some w := by
  cases x <;> first | exact ⟨_, rfl⟩ | cases hx

theorem own_of_entry (hx : x.entry = some p) : x.own = some p := by
  cases x <;> first | exact hx | cases hx

theorem entry_of_sleeps (hx : x.sleeps = some p) : x.entry = some p := by
  cases x <;> first | exact hx | cases hx

/-- A parker is one caller's. -/
theorem Inv.own_one (hi : Inv s h) {m : ℕ} (hn : (s.pc n).own = some p)
    (hm : (s.pc m).own = some p) : m = n := by
  obtain ⟨w, hw⟩ := wait_of_own hn
  obtain ⟨v, hv⟩ := wait_of_own hm
  exact hi.distinct m n v w hv hw ((hi.own m p hm).2.symm.trans (hi.own n p hn).2)

theorem holds_of_notifies {k : ℕ} {woke : List ℕ} (hx : x.notifies = some (k, woke)) :
    x.holds = true := by
  cases x <;> first | rfl | cases hx

/-- A `wait` begins. -/
theorem Inv.wait (hi : Inv s h) {r : Option Bool} {timed : Bool} (hn : s.pc n = .inside r) :
    Inv (s.goto n (.build ⟨s.count, timed⟩)) (h.record s t (.wait n timed)) := by
  have hpc : (s.goto n (.build ⟨s.count, timed⟩)).pc =
      fun m => if m = n then .build ⟨s.count, timed⟩ else s.pc m := rfl
  have hcall : ∀ m, m ≠ n → (h.record s t (.wait n timed)).call m = h.call m := fun m hmn =>
    update_of_ne hmn _ _
  have hnew : (h.record s t (.wait n timed)).call n = h.calls := update_self ..
  have hdepth : ∀ c < h.calls, (h.record s t (.wait n timed)).depth c = h.depth c ∧
      (h.record s t (.wait n timed)).timed c = h.timed c := fun c hc =>
    ⟨update_of_ne (Nat.ne_of_lt hc) _ _, update_of_ne (Nat.ne_of_lt hc) _ _⟩
  have hfresh : h.calls ∉ h.popped := fun hm => absurd (hi.past _ hm) (Nat.lt_irrefl _)
  constructor
  case holder => exact hi.holder_same hpc rfl (by rw [hn]; rfl)
  case call =>
    intro m w hw
    rcases pc_cases hpc m with ⟨rfl, he⟩ | ⟨hmn, he⟩ <;> rw [he] at hw
    · cases hw
      rw [hnew]
      have hd : (h.record s t (.wait m timed)).depth h.calls = s.count := update_self ..
      have ht : (h.record s t (.wait m timed)).timed h.calls = timed := update_self ..
      exact ⟨Nat.lt_succ_self _, hd.symm, ht.symm⟩
    · obtain ⟨hlt, hs, ht⟩ := hi.call m w hw
      rw [hcall m hmn, (hdepth _ hlt).1, (hdepth _ hlt).2]
      exact ⟨Nat.lt_succ_of_lt hlt, hs, ht⟩
  case distinct =>
    -- the new number is nobody else's
    have hother : ∀ m, m ≠ n → ∀ w, (s.pc m).wait = some w → h.call m ≠ h.calls := fun m _ w hw =>
      Nat.ne_of_lt (hi.call m w hw).1
    intro m e w v hm he heq
    by_cases hmn : m = n
    · by_cases hen : e = n
      · rw [hmn, hen]
      · simp only [State.goto, hen, if_false] at he
        rw [hmn, hnew, hcall e hen] at heq
        exact absurd heq.symm (hother e hen v he)
    · simp only [State.goto, hmn, if_false] at hm
      by_cases hen : e = n
      · rw [hen, hnew, hcall m hmn] at heq
        exact absurd heq (hother m hmn w hm)
      · simp only [State.goto, hen, if_false] at he
        rw [hcall m hmn, hcall e hen] at heq
        exact hi.distinct m e w v hm he heq
  case own =>
    intro m p hp
    rcases pc_cases hpc m with ⟨rfl, he⟩ | ⟨hmn, he⟩ <;> rw [he] at hp
    · cases hp
    · rw [hcall m hmn]
      exact hi.own m p hp
  case entry =>
    intro m p hp
    rcases pc_cases hpc m with ⟨rfl, he⟩ | ⟨hmn, he⟩ <;> rw [he] at hp
    · cases hp
    · rw [hcall m hmn]
      exact hi.entry m p hp
  case queued =>
    intro p hp
    obtain ⟨m, hm⟩ := hi.queued p hp
    have hmn : m ≠ n := by
      rintro rfl
      rw [hn] at hm
      cases hm
    exact ⟨m, by simpa [State.goto, hmn] using hm⟩
  case early =>
    intro m hm
    rcases pc_cases hpc m with ⟨rfl, he⟩ | ⟨hmn, he⟩ <;> rw [he] at hm
    · rw [hnew]
      exact hfresh
    · rw [hcall m hmn]
      exact hi.early m hm
  case verdict =>
    intro m w b hb
    rcases pc_cases hpc m with ⟨rfl, he⟩ | ⟨hmn, he⟩ <;> rw [he] at hb
    · cases hb
    · rw [hcall m hmn]
      exact hi.verdict m w b hb
  case notifies =>
    intro m k woke hk
    rcases pc_cases hpc m with ⟨rfl, he⟩ | ⟨-, he⟩ <;> rw [he] at hk
    · cases hk
    · exact hi.notifies m k woke hk
  case nodup => exact hi.nodup
  case once => exact hi.once
  case past => exact fun c hc => Nat.lt_succ_of_lt (hi.past c hc)
  case rounds => exact hi.rounds
  case returns =>
    intro x hx
    obtain ⟨hlt, hres, hheld, hdep, htim, hother⟩ := hi.returns x hx
    refine ⟨Nat.lt_succ_of_lt hlt, hres, hheld, ?_, ?_, ?_⟩
    · rw [(hdepth _ hlt).1]
      exact hdep
    · rw [(hdepth _ hlt).2]
      exact htim
    · intro m w hw
      rcases pc_cases hpc m with ⟨rfl, he⟩ | ⟨hmn, he⟩ <;> rw [he] at hw
      · rw [hnew]
        exact (Nat.ne_of_lt hlt).symm
      · rw [hcall m hmn]
        exact hother m w hw
  case awake =>
    exact hi.awake_same hpc rfl rfl (by rintro _ ⟨⟩) (by rw [hn]; rintro _ ⟨⟩)

/-- A turn of a wait builds its parker. -/
theorem Inv.build (hi : Inv s h) (hn : s.pc n = .build w) :
    Inv (State.goto { s with parkers := s.parkers + 1 } n (.append w s.parkers))
      { h with owner := update h.owner s.parkers (h.call n) } := by
  have hpc : (State.goto { s with parkers := s.parkers + 1 } n (.append w s.parkers)).pc =
      fun m => if m = n then .append w s.parkers else s.pc m := rfl
  have hold : ∀ m v, ((State.goto { s with parkers := s.parkers + 1 } n
      (.append w s.parkers)).pc m).wait = some v → (s.pc m).wait = some v :=
    forall_pc (P := fun m x => ∀ v, x.wait = some v → (s.pc m).wait = some v) hpc
      (by rw [hn]; exact fun _ hv => hv) fun _ _ _ hv => hv
  constructor
  case holder => exact hi.holder_same hpc rfl (by rw [hn]; rfl)
  case call => exact fun m v hv => hi.call m v (hold m v hv)
  case distinct => exact fun m e v u hv hu => hi.distinct m e v u (hold m v hv) (hold e u hu)
  case own =>
    intro m p hp
    rcases pc_cases hpc m with ⟨rfl, he⟩ | ⟨-, he⟩ <;> rw [he] at hp
    · cases hp
      exact ⟨Nat.lt_succ_self _, update_self ..⟩
    · obtain ⟨hlt, howner⟩ := hi.own m p hp
      exact ⟨Nat.lt_succ_of_lt hlt, (update_of_ne (Nat.ne_of_lt hlt) _ _).trans howner⟩
  case entry =>
    intro m p hp
    rcases pc_cases hpc m with ⟨rfl, he⟩ | ⟨-, he⟩ <;> rw [he] at hp
    · cases hp
    · exact hi.entry m p hp
  case queued =>
    intro p hp
    obtain ⟨m, hm⟩ := hi.queued p hp
    have hmn : m ≠ n := by
      rintro rfl
      rw [hn] at hm
      cases hm
    exact ⟨m, by simpa [State.goto, hmn] using hm⟩
  case early =>
    intro m hm
    rcases pc_cases hpc m with ⟨rfl, he⟩ | ⟨-, he⟩ <;> rw [he] at hm
    · exact hi.early m (by rw [hn]; rfl)
    · exact hi.early m hm
  case verdict =>
    intro m v b hb
    rcases pc_cases hpc m with ⟨rfl, he⟩ | ⟨-, he⟩ <;> rw [he] at hb
    · cases hb
    · exact hi.verdict m v b hb
  case notifies =>
    intro m k woke hk
    rcases pc_cases hpc m with ⟨rfl, he⟩ | ⟨-, he⟩ <;> rw [he] at hk
    · cases hk
    · exact hi.notifies m k woke hk
  case nodup => exact hi.nodup
  case once => exact hi.once
  case past => exact hi.past
  case rounds => exact hi.rounds
  case returns =>
    intro r hr
    obtain ⟨hlt, hres, hheld, hdepth, htimed, hother⟩ := hi.returns r hr
    exact ⟨hlt, hres, hheld, hdepth, htimed, fun m v hv => hother m v (hold m v hv)⟩
  case awake => exact hi.awake_same hpc rfl rfl (by rintro _ ⟨⟩) (by rw [hn]; rintro _ ⟨⟩)

/-- The holder of the lock changes the queue: what is left of the parkers of the others is
in it as before. -/
theorem Inv.requeue (hi : Inv s h) {q : Pc} {waiters : List ℕ} (hheld : (s.pc n).holds = true)
    (hq : q.holds = true) (hwait : q.wait = (s.pc n).wait) (hown : q.own = (s.pc n).own ∨ q.own = none)
    (hsame : ∀ m p, m ≠ n → (s.pc m).own = some p → (p ∈ waiters ↔ p ∈ s.waiters))
    (hentry : ∀ p, q.entry = some p → (p ∈ waiters ↔ h.call n ∉ h.popped))
    (hqueued : ∀ p ∈ waiters, q.entry = some p ∨ (p ∈ s.waiters ∧ (s.pc n).entry ≠ some p))
    (hearly : q.early = true → h.call n ∉ h.popped) (hverdict : q.verdict = none)
    (hnotifies : q.notifies = none) (hnodup : waiters.Nodup)
    (hsleeps : ∀ p, q.sleeps = some p → p ∈ waiters) (hbound : (s.pc n).bound = []) :
    Inv (State.goto { s with waiters := waiters } n q) h := by
  have hpc : (State.goto { s with waiters := waiters } n q).pc =
      fun m => if m = n then q else s.pc m := rfl
  have hold : ∀ m v, ((State.goto { s with waiters := waiters } n q).pc m).wait = some v →
      (s.pc m).wait = some v :=
    forall_pc (P := fun m x => ∀ v, x.wait = some v → (s.pc m).wait = some v) hpc
      (by rw [hwait]; exact fun _ hv => hv) fun _ _ _ hv => hv
  constructor
  case holder => exact hi.holder_same hpc rfl (hq.trans hheld.symm)
  case call => exact fun m v hv => hi.call m v (hold m v hv)
  case distinct => exact fun m e v u hv hu => hi.distinct m e v u (hold m v hv) (hold e u hu)
  case own =>
    intro m p hp
    rcases pc_cases hpc m with ⟨rfl, he⟩ | ⟨-, he⟩ <;> rw [he] at hp
    · rcases hown with ho | ho
      · exact hi.own m p (ho ▸ hp)
      · rw [ho] at hp
        cases hp
    · exact hi.own m p hp
  case entry =>
    intro m p hp
    rcases pc_cases hpc m with ⟨rfl, he⟩ | ⟨hmn, he⟩ <;> rw [he] at hp
    · exact hentry p hp
    · exact (hsame m p hmn (own_of_entry hp)).trans (hi.entry m p hp)
  case queued =>
    intro p hp
    rcases hqueued p hp with he | ⟨hs, hne⟩
    · exact ⟨n, by simpa [State.goto] using he⟩
    · obtain ⟨m, hm⟩ := hi.queued p hs
      have hmn : m ≠ n := by
        rintro rfl
        exact hne hm
      exact ⟨m, by simpa [State.goto, hmn] using hm⟩
  case early =>
    intro m hm
    rcases pc_cases hpc m with ⟨rfl, he⟩ | ⟨-, he⟩ <;> rw [he] at hm
    · exact hearly hm
    · exact hi.early m hm
  case verdict =>
    intro m v b hb
    rcases pc_cases hpc m with ⟨rfl, he⟩ | ⟨-, he⟩ <;> rw [he] at hb
    · rw [hverdict] at hb
      cases hb
    · exact hi.verdict m v b hb
  case notifies =>
    intro m k woke hk
    rcases pc_cases hpc m with ⟨rfl, he⟩ | ⟨hmn, he⟩ <;> rw [he] at hk
    · rw [hnotifies] at hk
      cases hk
    · exact absurd (hi.alone hheld (holds_of_notifies hk)) hmn
  case nodup => exact hnodup
  case once => exact hi.once
  case past => exact hi.past
  case rounds => exact hi.rounds
  case returns =>
    intro r hr
    obtain ⟨hlt, hres, hh, hdepth, htimed, hother⟩ := hi.returns r hr
    exact ⟨hlt, hres, hh, hdepth, htimed, fun m v hv => hother m v (hold m v hv)⟩
  case awake =>
    intro m p hp
    rcases pc_cases hpc m with ⟨rfl, he⟩ | ⟨hmn, he⟩ <;> rw [he] at hp
    · exact .inl (hsleeps p hp)
    · rcases hi.awake m p hp with hs | hw | ⟨e, hb⟩
      · exact .inl ((hsame m p hmn (own_of_entry (entry_of_sleeps hp))).mpr hs)
      · exact .inr (.inl hw)
      · have hen : e ≠ n := by
          rintro rfl
          rw [hbound] at hb
          cases hb
        exact .inr (.inr ⟨e, by simpa [State.goto, hen] using hb⟩)

theorem wait_of_early (hx : x.early = true) : ∃ w, x.wait = some w := by
  cases x <;> first | exact ⟨_, rfl⟩ | cases hx

theorem entry_of_early (hx : x.early = true) : x.entry = none := by
  cases x <;> first | rfl | cases hx

theorem wait_of_verdict {r : Bool} (hx : x.verdict = some (w, r)) :
    x.wait = some w := by
  cases x <;> cases hx
  rfl

theorem entry_of_verdict {r : Bool} (hx : x.verdict = some (w, r)) :
    x.entry = none := by
  cases x <;> cases hx
  rfl

/-- A queued parker is of a call in progress that no notify has popped. -/
theorem Inv.owner_queued (hi : Inv s h) (hp : p ∈ s.waiters) :
    ∃ m w, (s.pc m).entry = some p ∧ (s.pc m).wait = some w ∧ h.owner p = h.call m ∧
      h.call m ∉ h.popped := by
  obtain ⟨m, hm⟩ := hi.queued p hp
  have hown := own_of_entry hm
  obtain ⟨w, hw⟩ := wait_of_own hown
  exact ⟨m, w, hm, hw, (hi.own m p hown).2, (hi.entry m p hm).mp hp⟩

/-- The queued parker of a call in progress is the one of its turn. -/
theorem Inv.entry_of_owner (hi : Inv s h) {m : ℕ} (hp : p ∈ s.waiters)
    (hw : (s.pc m).wait = some w) (howner : h.owner p = h.call m) :
    (s.pc m).entry = some p := by
  obtain ⟨e, v, he, hv, ho, -⟩ := hi.owner_queued hp
  have hem : e = m := hi.distinct e m v w hv hw (ho.symm.trans howner)
  exact hem ▸ he

theorem Inv.owner_inj (hi : Inv s h) {p' : ℕ} (hp : p ∈ s.waiters) (hp' : p' ∈ s.waiters)
    (howner : h.owner p = h.owner p') : p = p' := by
  obtain ⟨m, w, hm, hw, ho, -⟩ := hi.owner_queued hp'
  have hm' := hi.entry_of_owner hp hw (howner.trans ho)
  exact Option.some.inj (hm'.symm.trans hm)

/-- The holder of the lock pops `out` from the queue. -/
theorem Inv.pop (hi : Inv s h) (out rest : List ℕ) {rounds : List Round}
    (hheld : (s.pc n).holds = true) (hq : q.holds = true) (hout : s.waiters = out ++ rest)
    (hentry : (s.pc n).entry = none) (hwait : q.wait = none) (hbound : q.bound = (s.pc n).bound ++ out)
    (hnotifies : ∀ k woke, q.notifies = some (k, woke) →
      woke ++ rest = h.snapshot n ∧ woke.length + k = h.asked n)
    (hrounds : ∀ x ∈ rounds, x.woke = x.queued.take x.asked) :
    Inv (State.goto { s with waiters := rest } n q) { h.pop out with rounds := rounds } := by
  have hpc : (State.goto { s with waiters := rest } n q).pc =
      fun m => if m = n then q else s.pc m := rfl
  have hold : ∀ m v, ((State.goto { s with waiters := rest } n q).pc m).wait = some v →
      m ≠ n ∧ (s.pc m).wait = some v :=
    forall_pc (P := fun m x => ∀ v, x.wait = some v → m ≠ n ∧ (s.pc m).wait = some v) hpc
      (by rw [hwait]; rintro _ ⟨⟩) fun _ hmn _ hv => ⟨hmn, hv⟩
  have hmem : ∀ p ∈ out, p ∈ s.waiters := fun p hp => by
    rw [hout]
    exact List.mem_append_left _ hp
  have hnodup := hi.nodup
  rw [hout, List.nodup_append] at hnodup
  obtain ⟨hnout, hnrest, hdisj⟩ := hnodup
  -- only the calls that were queued are popped
  have hnew : ∀ m v, (s.pc m).wait = some v → h.call m ∈ out.map h.owner →
      ∃ p ∈ out, (s.pc m).entry = some p := by
    intro m v hv hm
    obtain ⟨p, hp, ho⟩ := List.mem_map.mp hm
    exact ⟨p, hp, hi.entry_of_owner (hmem p hp) hv ho⟩
  constructor
  case holder => exact hi.holder_same hpc rfl (hq.trans hheld.symm)
  case call => exact fun m v hv => hi.call m v (hold m v hv).2
  case distinct => exact fun m e v u hv hu => hi.distinct m e v u (hold m v hv).2 (hold e u hu).2
  case own =>
    intro m p hp
    obtain ⟨v, hv⟩ := wait_of_own hp
    have hmn := (hold m v hv).1
    simp only [State.goto, hmn, if_false] at hp
    exact hi.own m p hp
  case entry =>
    intro m p hp
    obtain ⟨v, hv⟩ := wait_of_own (own_of_entry hp)
    obtain ⟨hmn, hv⟩ := hold m v hv
    simp only [State.goto, hmn, if_false] at hp
    have hs := hi.entry m p hp
    rw [hout, List.mem_append] at hs
    constructor
    · intro hr hm
      rcases List.mem_append.mp hm with hm | hm
      · exact hs.mp (.inr hr) hm
      · obtain ⟨p', hp', he⟩ := hnew m v hv hm
        rw [he] at hp
        cases hp
        exact hdisj p hp' p hr rfl
    · intro hm
      rcases hs.mpr fun hpop => hm (List.mem_append_left _ hpop) with ho | hr
      · refine absurd (List.mem_append_right _ (List.mem_map.mpr ⟨p, ho, ?_⟩)) hm
        exact (hi.own m p (own_of_entry hp)).2
      · exact hr
  case queued =>
    intro p hp
    obtain ⟨m, hm⟩ := hi.queued p (by rw [hout]; exact List.mem_append_right _ hp)
    have hmn : m ≠ n := by
      rintro rfl
      rw [hentry] at hm
      cases hm
    exact ⟨m, by simpa [State.goto, hmn] using hm⟩
  case early =>
    intro m hm hpop
    obtain ⟨v, hv⟩ := wait_of_early hm
    obtain ⟨hmn, hv⟩ := hold m v hv
    simp only [State.goto, hmn, if_false] at hm
    rcases List.mem_append.mp hpop with hpop | hpop
    · exact hi.early m hm hpop
    · obtain ⟨p, -, he⟩ := hnew m v hv hpop
      rw [entry_of_early hm] at he
      cases he
  case verdict =>
    intro m v b hb
    obtain ⟨hmn, hv⟩ := hold m v (wait_of_verdict hb)
    simp only [State.goto, hmn, if_false] at hb
    obtain ⟨hiff, htimed⟩ := hi.verdict m v b hb
    refine ⟨hiff.trans ⟨List.mem_append_left _, fun hpop => ?_⟩, htimed⟩
    rcases List.mem_append.mp hpop with hpop | hpop
    · exact hpop
    · obtain ⟨p, -, he⟩ := hnew m v hv hpop
      rw [entry_of_verdict hb] at he
      cases he
  case notifies =>
    intro m k woke hk
    rcases pc_cases hpc m with ⟨rfl, he⟩ | ⟨hmn, he⟩ <;> rw [he] at hk
    · exact hnotifies k woke hk
    · exact absurd (hi.alone hheld (holds_of_notifies hk)) hmn
  case nodup => exact hnrest
  case once =>
    refine List.nodup_append.mpr ⟨hi.once, ?_, ?_⟩
    · refine List.Nodup.map_on (fun p hp p' hp' ho => ?_) hnout
      exact hi.owner_inj (hmem p hp) (hmem p' hp') ho
    · rintro c hc _ hm rfl
      obtain ⟨p, hp, ho⟩ := List.mem_map.mp hm
      obtain ⟨m, -, -, -, ho', hnot⟩ := hi.owner_queued (hmem p hp)
      exact hnot (ho' ▸ ho ▸ hc)
  case past =>
    intro c hc
    rcases List.mem_append.mp hc with hc | hc
    · exact hi.past c hc
    · obtain ⟨p, hp, rfl⟩ := List.mem_map.mp hc
      obtain ⟨m, w, -, hw, ho, -⟩ := hi.owner_queued (hmem p hp)
      rw [ho]
      exact (hi.call m w hw).1
  case rounds => exact hrounds
  case returns =>
    intro r hr
    obtain ⟨hlt, hres, hh, hdepth, htimed, hother⟩ := hi.returns r hr
    refine ⟨hlt, hres.trans ⟨List.mem_append_left _, fun hpop => ?_⟩, hh, hdepth, htimed,
      fun m v hv => hother m v (hold m v hv).2⟩
    rcases List.mem_append.mp hpop with hpop | hpop
    · exact hpop
    · obtain ⟨p, hp, ho⟩ := List.mem_map.mp hpop
      obtain ⟨m, w, -, hw, ho', -⟩ := hi.owner_queued (hmem p hp)
      exact absurd (ho'.symm.trans ho) (hother m w hw)
  case awake =>
    intro m p hp
    obtain ⟨v, hv⟩ := wait_of_own (own_of_entry (entry_of_sleeps hp))
    have hmn := (hold m v hv).1
    simp only [State.goto, hmn, if_false] at hp
    rcases hi.awake m p hp with hs | hw | ⟨e, hb⟩
    · rw [hout] at hs
      rcases List.mem_append.mp hs with ho | hr
      · refine .inr (.inr ⟨n, ?_⟩)
        simp only [State.goto, if_true, hbound]
        exact List.mem_append_right _ ho
      · exact .inl hr
    · exact .inr (.inl hw)
    · refine .inr (.inr ⟨e, ?_⟩)
      by_cases hen : e = n
      · rw [hen] at hb
        simp only [State.goto, hen, if_true, hbound]
        exact List.mem_append_left _ hb
      · simpa [State.goto, hen] using hb

/-- A notify has popped all that it pops. -/
theorem Inv.close (hi : Inv s h) {k : ℕ} {woke : List ℕ} (hn : s.pc n = .notify k woke)
    (htake : woke = (h.snapshot n).take (h.asked n)) :
    Inv (s.goto n (.waking woke)) (h.close n woke) := by
  have ht : Inv (s.goto n (.waking woke)) h := by
    refine hi.move rfl rfl rfl (hi.holder_same rfl rfl (by rw [hn]; rfl)) (by intros; contradiction) (by intros; contradiction) (by intros; contradiction) ?_ (by intros; contradiction)
      (by intros; contradiction) (by intros; contradiction) (hi.awake_same rfl rfl rfl (by intros; contradiction) ?_)
    · rw [hn]
      exact (by intros; contradiction)
    · rw [hn]
      exact fun _ hx => hx
  refine { ht with rounds := ?_ }
  intro y hy
  rcases List.mem_append.mp hy with hy | hy
  · exact hi.rounds y hy
  · rw [List.mem_singleton.mp hy]
    exact htake

/-- A notify begins. -/
theorem Inv.ask (hi : Inv s h) {k : ℕ} (hn : (s.pc n).notifies = none) :
    Inv s (h.record s t (.notify n k)) := by
  refine ⟨hi.holder, hi.call, hi.distinct, hi.own, hi.entry, hi.queued, hi.early, hi.verdict, ?_,
    hi.nodup, hi.once, hi.past, hi.rounds, hi.returns, hi.awake⟩
  intro m j woke hm
  have hmn : m ≠ n := by
    rintro rfl
    rw [hn] at hm
    cases hm
  have hsnap : (h.record s t (.notify n k)).snapshot m = h.snapshot m :=
    update_of_ne hmn _ _
  have hask : (h.record s t (.notify n k)).asked m = h.asked m := update_of_ne hmn _ _
  rw [hsnap, hask]
  exact hi.notifies m j woke hm

/-- A wait returns. -/
theorem Inv.restore (hi : Inv s h) {r : Bool} (hn : s.pc n = .restore w r) :
    Inv (State.goto { s with count := w.saved } n (.inside (some r)))
      { h with returns := h.returns ++ [⟨h.call n, r, s.holder == some n, w.saved⟩] } := by
  have hwait : (s.pc n).wait = some w := by rw [hn]; rfl
  have hheld : (s.pc n).holds = true := by rw [hn]; rfl
  have hpc : (State.goto { s with count := w.saved } n (.inside (some r))).pc =
      fun m => if m = n then .inside (some r) else s.pc m := rfl
  have ht : Inv (State.goto { s with count := w.saved } n (.inside (some r))) h := by
    refine hi.move hpc rfl rfl (hi.holder_same hpc rfl hheld.symm) (by rintro _ ⟨⟩) (by rintro _ ⟨⟩) (by rintro _ ⟨⟩) ?_ (by rintro ⟨⟩) (by rintro _ _ ⟨⟩)
      (by intros; contradiction) (hi.awake_same hpc rfl rfl (by intros; contradiction) ?_)
    · rw [hn]
      exact (by intros; contradiction)
    · rw [hn]
      exact (by intros; contradiction)
  refine { ht with returns := ?_ }
  intro x hx
  rcases List.mem_append.mp hx with hx | hx
  · exact ht.returns x hx
  · obtain ⟨hlt, hsaved, htimed⟩ := hi.call n w hwait
    obtain ⟨hiff, hfalse⟩ := hi.verdict n w r (by rw [hn]; rfl)
    rw [List.mem_singleton.mp hx]
    refine ⟨hlt, hiff, ?_, hsaved, ?_, ?_⟩
    · simp [(hi.holder n).mp hheld]
    · intro hu
      cases r with
      | true => rfl
      | false => exact absurd (htimed.symm.trans (hfalse rfl)) (by rw [hu]; decide)
    · intro m v hm
      rcases pc_cases hpc m with ⟨rfl, he⟩ | ⟨hmn, he⟩ <;> rw [he] at hm
      · cases hm
      · exact fun heq => hmn (hi.distinct m n v w hm hwait heq)

/-- A caller parks on the wake it was given. -/
theorem Inv.woken (hi : Inv s h) (hn : s.pc n = .park w p) :
    Inv ((s.setWake p false).goto n (.release w p)) h := by
  have hpc : ((s.setWake p false).goto n (.release w p)).pc =
      fun m => if m = n then .release w p else s.pc m := rfl
  refine hi.move hpc rfl rfl (hi.holder_same hpc rfl (by rw [hn]; rfl)) ?_ ?_ ?_ ?_ (by rintro ⟨⟩) (by rintro _ _ ⟨⟩)
    (by intros; contradiction) ?_
  · rw [hn]
    exact fun _ hw => hw
  · rw [hn]
    exact fun _ hw => hw
  · rw [hn]
    exact fun _ hw => hw
  · rw [hn]
    exact fun _ hw => .inl hw
  · intro m p' hp'
    rcases pc_cases hpc m with ⟨-, he⟩ | ⟨hmn, he⟩ <;> rw [he] at hp'
    · cases hp'
    · have hown : (s.pc n).own = some p := by rw [hn]; rfl
      have hne : p' ≠ p := by
        rintro rfl
        exact hmn (hi.own_one hown (own_of_entry (entry_of_sleeps hp')))
      rcases hi.awake m p' hp' with hq | hw | ⟨e, hb⟩
      · exact .inl hq
      · exact .inr (.inl (by simpa [State.goto, State.setWake, hne] using hw))
      · have hen : e ≠ n := by
          rintro rfl
          rw [hn] at hb
          cases hb
        exact .inr (.inr ⟨e, by simpa [State.goto, State.setWake, hen] using hb⟩)

/-- A notifier wakes the next of the parkers it popped. -/
theorem Inv.wakes (hi : Inv s h) {ps : List ℕ} (hn : s.pc n = .waking (p :: ps)) :
    Inv ((s.setWake p true).goto n (.waking ps)) h := by
  have hpc : ((s.setWake p true).goto n (.waking ps)).pc =
      fun m => if m = n then .waking ps else s.pc m := rfl
  refine hi.move hpc rfl rfl (hi.holder_same hpc rfl (by rw [hn]; rfl)) (by rintro _ ⟨⟩) (by rintro _ ⟨⟩) (by rintro _ ⟨⟩) ?_ (by rintro ⟨⟩)
    (by intros; contradiction) (by intros; contradiction) ?_
  · rw [hn]
    exact (by intros; contradiction)
  · intro m p' hp'
    rcases pc_cases hpc m with ⟨-, he⟩ | ⟨-, he⟩ <;> rw [he] at hp'
    · cases hp'
    · by_cases hpp : p' = p
      · exact .inr (.inl (by simp [State.goto, State.setWake, hpp]))
      · rcases hi.awake m p' hp' with hq | hw | ⟨e, hb⟩
        · exact .inl hq
        · exact .inr (.inl (by simpa [State.goto, State.setWake, hpp] using hw))
        · refine .inr (.inr ⟨e, ?_⟩)
          by_cases hen : e = n
          · rw [hen, hn] at hb
            rw [hen]
            simpa [State.goto, Pc.bound, hpp] using hb
          · simpa [State.goto, State.setWake, hen] using hb

/-- A turn queues its parker. -/
theorem Inv.append (hi : Inv s h) (hn : s.pc n = .append w p) :
    Inv (State.goto { s with waiters := s.waiters ++ [p] } n (.unlock w p)) h := by
  have hown : (s.pc n).own = some p := by rw [hn]; rfl
  have hnew : p ∉ s.waiters := by
    intro hp
    obtain ⟨m, hm⟩ := hi.queued p hp
    have hmn := hi.own_one hown (own_of_entry hm)
    rw [hmn, hn] at hm
    cases hm
  have hout : h.call n ∉ h.popped := hi.early n (by rw [hn]; rfl)
  refine hi.requeue (by rw [hn]; rfl) rfl (by rw [hn]; rfl) (.inl (by rw [hn]; rfl)) ?_ ?_ ?_ (by rintro ⟨⟩)
    rfl rfl ?_ ?_ (by rw [hn]; rfl)
  · intro m p' hmn hm
    have hne : p' ≠ p := by
      rintro rfl
      exact hmn (hi.own_one hown hm)
    simp [hne]
  · rintro p' ⟨⟩
    exact iff_of_true (by simp) hout
  · intro p' hp'
    rcases List.mem_append.mp hp' with hp' | hp'
    · exact .inr ⟨hp', by rw [hn]; exact (by rintro ⟨⟩)⟩
    · rw [List.mem_singleton.mp hp']
      exact .inl rfl
  · exact List.nodup_append.mpr ⟨hi.nodup, List.nodup_singleton p, fun a ha b hb hab =>
      hnew (List.mem_singleton.mp hb ▸ hab ▸ ha)⟩
  · rintro p' ⟨⟩
    simp

/-- A turn finds its parker queued and takes it out. -/
theorem Inv.erase (hi : Inv s h) (hn : s.pc n = .remove w p)
    (hp : p ∈ s.waiters) :
    Inv (State.goto { s with waiters := s.waiters.erase p } n (.recheck w)) h := by
  have hown : (s.pc n).own = some p := by rw [hn]; rfl
  have hout : h.call n ∉ h.popped := (hi.entry n p (by rw [hn]; rfl)).mp hp
  have hmem : ∀ p', p' ∈ s.waiters.erase p ↔ p' ≠ p ∧ p' ∈ s.waiters := fun p' =>
    hi.nodup.mem_erase_iff
  refine hi.requeue (by rw [hn]; rfl) rfl (by rw [hn]; rfl) (.inr rfl) ?_ (by rintro _ ⟨⟩) ?_ (fun _ => hout)
    rfl rfl (hi.nodup.erase p) (by rintro _ ⟨⟩) (by rw [hn]; rfl)
  · intro m p' hmn hm
    have hne : p' ≠ p := by
      rintro rfl
      exact hmn (hi.own_one hown hm)
    rw [hmem]
    exact and_iff_right hne
  · intro p' hp'
    obtain ⟨hne, hq⟩ := (hmem p').mp hp'
    refine .inr ⟨hq, fun he => hne ?_⟩
    rw [hn] at he
    exact (Option.some.inj he).symm

theorem callerStep_inv (hi : Inv s h) (hs : callerStep s n = some t) :
    Inv t (h.caller s t n) := by
  unfold callerStep at hs
  unfold Trace.caller
  split at hs
  case h_1 w hpc =>
    cases hs
    rw [hpc]
    exact hi.build hpc
  case h_2 w p hpc =>
    cases hs
    rw [hpc]
    exact hi.append hpc
  case h_3 w p hpc =>
    cases hs
    rw [hpc]
    refine hi.move rfl rfl rfl (hi.holder_drop rfl (by rw [hpc]; rfl) rfl rfl) ?_ ?_ ?_ ?_ (by intros; contradiction)
      (by intros; contradiction) (by intros; contradiction) (hi.awake_same rfl rfl rfl ?_ ?_)
    all_goals rw [hpc]
    all_goals first | exact fun _ hx => hx | exact fun _ hx => .inl hx
  case h_4 w p hpc =>
    split at hs
    case isTrue =>
      cases hs
      rw [hpc]
      exact hi.woken hpc
    case isFalse => cases hs
  case h_5 w p hpc =>
    cases hs
    rw [hpc]
    refine hi.move rfl rfl rfl (hi.holder_same rfl rfl (by rw [hpc]; rfl)) ?_ ?_ ?_ ?_ (by intros; contradiction) (by intros; contradiction)
      (by intros; contradiction) (hi.awake_same rfl rfl rfl (by intros; contradiction) ?_)
    all_goals rw [hpc]
    all_goals first | exact fun _ hx => hx | exact fun _ hx => .inl hx
  case h_6 w p hpc =>
    split at hs
    case isTrue hfree =>
      cases hs
      rw [hpc]
      refine hi.move rfl rfl rfl (hi.holder_take rfl hfree rfl rfl) ?_ ?_ ?_ ?_ (by intros; contradiction) (by intros; contradiction) (by intros; contradiction)
        (hi.awake_same rfl rfl rfl (by intros; contradiction) ?_)
      all_goals rw [hpc]
      all_goals first | exact fun _ hx => hx | exact fun _ hx => .inl hx
    case isFalse => cases hs
  case h_7 w p hpc =>
    split at hs
    case isTrue hp =>
      cases hs
      rw [hpc]
      exact hi.erase hpc hp
    case isFalse hp =>
      cases hs
      rw [hpc]
      have hpop : h.call n ∈ h.popped := by
        by_contra hnot
        exact hp ((hi.entry n p (by rw [hpc]; rfl)).mpr hnot)
      refine hi.move rfl rfl rfl (hi.holder_same rfl rfl (by rw [hpc]; rfl)) ?_ (by intros; contradiction) (by intros; contradiction) ?_ (by intros; contradiction)
        ?_ (by intros; contradiction) (hi.awake_same rfl rfl rfl (by intros; contradiction) ?_)
      · rw [hpc]
        exact fun _ hx => hx
      · rw [hpc]
        rintro p' ⟨⟩
        exact .inr hp
      · rintro v b ⟨⟩
        exact ⟨iff_of_true rfl hpop, (by intros; contradiction)⟩
      · rw [hpc]
        exact (by intros; contradiction)
  case h_8 w hpc =>
    cases hs
    rw [hpc]
    refine hi.move rfl rfl rfl (hi.holder_same rfl rfl (by rw [hpc]; rfl)) ?_ (by intros; contradiction) (by intros; contradiction) ?_
      (fun _ => hi.early n (by rw [hpc]; rfl)) (by intros; contradiction) (by intros; contradiction) (hi.awake_same rfl rfl rfl (by intros; contradiction) ?_)
    · rw [hpc]
      exact fun _ hx => hx
    · rw [hpc]
      exact (by intros; contradiction)
    · rw [hpc]
      exact (by intros; contradiction)
  case h_9 w result hpc =>
    cases hs
    rw [hpc]
    exact hi.restore hpc
  case h_10 woke hpc =>
    cases hs
    rw [hpc]
    obtain ⟨hsnap, hlen⟩ := hi.notifies n 0 woke (by rw [hpc]; rfl)
    have htake : woke = (h.snapshot n).take (h.asked n) := by
      rw [← hsnap, ← hlen]
      exact (List.take_left ..).symm
    exact hi.close hpc htake
  case h_11 k woke hpc =>
    obtain ⟨hsnap, hlen⟩ := hi.notifies n (k + 1) woke (by rw [hpc]; rfl)
    split at hs
    case h_1 hw =>
      cases hs
      rw [hpc]
      have htake : woke = (h.snapshot n).take (h.asked n) := by
        rw [← hsnap, ← hlen, hw, List.append_nil]
        exact (List.take_of_length_le (Nat.le_add_right _ _)).symm
      simp only [hw]
      exact hi.close hpc htake
    case h_2 p ps hw =>
      cases hs
      rw [hpc]
      simp only [hw]
      refine hi.pop [p] ps (by rw [hpc]; rfl) rfl hw (by rw [hpc]; rfl) rfl ?_ ?_
        hi.rounds
      · rw [hpc]
        rfl
      · rintro j woke' ⟨⟩
        rw [hw] at hsnap
        refine ⟨by rw [List.append_assoc]; exact hsnap, ?_⟩
        rw [List.length_append, List.length_singleton]
        omega
  case h_12 hpc =>
    cases hs
    rw [hpc]
    refine hi.move rfl rfl rfl (hi.holder_same rfl rfl (by rw [hpc]; rfl)) (by intros; contradiction) (by intros; contradiction) (by intros; contradiction) ?_ (by intros; contradiction)
      (by intros; contradiction) (by intros; contradiction) (hi.awake_same rfl rfl rfl (by intros; contradiction) ?_)
    · rw [hpc]
      exact (by intros; contradiction)
    · rw [hpc]
      exact (by intros; contradiction)
  case h_13 p ps hpc =>
    cases hs
    rw [hpc]
    exact hi.wakes hpc
  case h_14 => cases hs

end Moves

variable {s : State} {h : Trace}

/-- A lock or an unlock that is not the first changes nothing but the depth. -/
theorem Inv.recount (hi : Inv s h) (count : ℕ) :
    Inv { s with count := count } h :=
  ⟨hi.holder, hi.call, hi.distinct, hi.own, hi.entry, hi.queued, hi.early, hi.verdict, hi.notifies,
    hi.nodup, hi.once, hi.past, hi.rounds, hi.returns, hi.awake⟩

theorem step_inv {t : State} {a : Action} (hi : Inv s h) (hs : step s a = some t) :
    Inv t (h.record s t a) := by
  cases a with
  | caller n => exact callerStep_inv hi hs
  | lock n =>
    simp only [step] at hs
    split at hs
    case h_1 hpc =>
      split at hs
      case isTrue hfree =>
        cases hs
        refine hi.move rfl rfl rfl (hi.holder_take rfl hfree rfl rfl) (by intros; contradiction) (by intros; contradiction) (by intros; contradiction) ?_ (by intros; contradiction)
          (by intros; contradiction) (by intros; contradiction) (hi.awake_same rfl rfl rfl (by intros; contradiction) ?_)
        · rw [hpc]
          exact (by intros; contradiction)
        · rw [hpc]
          exact (by intros; contradiction)
      case isFalse => cases hs
    case h_2 =>
      cases hs
      exact hi.recount _
    case h_3 => cases hs
  | unlock n =>
    simp only [step] at hs
    split at hs
    case h_1 r hpc =>
      split at hs
      · cases hs
        refine hi.move rfl rfl rfl (hi.holder_drop rfl (by rw [hpc]; rfl) rfl rfl) (by intros; contradiction) (by intros; contradiction) (by intros; contradiction)
          ?_ (by intros; contradiction) (by intros; contradiction) (by intros; contradiction) (hi.awake_same rfl rfl rfl (by intros; contradiction) ?_)
        · rw [hpc]
          exact (by intros; contradiction)
        · rw [hpc]
          exact (by intros; contradiction)
      · cases hs
        exact hi.recount _
    case h_2 => cases hs
  | wait n timed =>
    simp only [step] at hs
    split at hs
    case h_1 r hpc =>
      cases hs
      exact hi.wait hpc
    case h_2 => cases hs
  | notify n k =>
    simp only [step] at hs
    split at hs
    case h_1 r hpc =>
      cases hs
      have ht := hi.ask (n := n) (k := k) (t := s.goto n (.notify k [])) (by rw [hpc]; rfl)
      refine ht.move rfl rfl rfl (ht.holder_same rfl rfl (by rw [hpc]; rfl)) (by intros; contradiction) (by intros; contradiction) (by intros; contradiction) ?_
        (by intros; contradiction) (by intros; contradiction) ?_ (ht.awake_same rfl rfl rfl (by intros; contradiction) ?_)
      · rw [hpc]
        exact (by intros; contradiction)
      · rintro j woke ⟨⟩
        have hsnap : (h.record s (s.goto n (.notify k [])) (.notify n k)).snapshot n = s.waiters :=
          update_self ..
        have hask : (h.record s (s.goto n (.notify k [])) (.notify n k)).asked n = k :=
          update_self ..
        rw [hsnap, hask]
        exact ⟨rfl, Nat.zero_add k⟩
      · rw [hpc]
        exact (by intros; contradiction)
    case h_2 => cases hs
  | notifyAll n =>
    simp only [step] at hs
    split at hs
    case h_1 r hpc =>
      cases hs
      refine hi.pop s.waiters [] (by rw [hpc]; rfl) rfl (List.append_nil _).symm
        (by rw [hpc]; rfl) rfl (by rw [hpc]; rfl) (by intros; contradiction) ?_
      intro x hx
      rcases List.mem_append.mp hx with hx | hx
      · exact hi.rounds x hx
      · rw [List.mem_singleton.mp hx]
        exact List.take_length.symm
    case h_2 => cases hs
  | spurious n =>
    simp only [step] at hs
    split at hs
    case h_1 w p hpc =>
      cases hs
      refine hi.move rfl rfl rfl (hi.holder_same rfl rfl (by rw [hpc]; rfl)) ?_ ?_ ?_ ?_ (by intros; contradiction) (by intros; contradiction)
        (by intros; contradiction) (hi.awake_same rfl rfl rfl (by intros; contradiction) ?_)
      all_goals rw [hpc]
      all_goals first | exact fun _ hx => hx | exact fun _ hx => .inl hx
    case h_2 => cases hs
  | expire n =>
    simp only [step] at hs
    split at hs
    case h_1 saved hpc =>
      cases hs
      have hout : h.call n ∉ h.popped := hi.early n (by rw [hpc]; rfl)
      refine hi.move rfl rfl rfl (hi.holder_same rfl rfl (by rw [hpc]; rfl)) ?_ (by intros; contradiction) (by intros; contradiction) ?_ (by intros; contradiction)
        ?_ (by intros; contradiction) (hi.awake_same rfl rfl rfl (by intros; contradiction) ?_)
      · rw [hpc]
        exact fun _ hx => hx
      · rw [hpc]
        exact (by intros; contradiction)
      · rintro v b ⟨⟩
        exact ⟨iff_of_false nofun hout, fun _ => rfl⟩
      · rw [hpc]
        exact (by intros; contradiction)
    case h_2 => cases hs

theorem reachable_inv {x : State × Trace} (hr : Reachable traced x) : Inv x.1 x.2 := by
  refine Reachable.invariant (P := fun x => Inv x.1 x.2) ?_ ?_ hr
  · rintro x rfl
    exact inv_init
  · intro x a y _ hi hs
    obtain ⟨t, ht, rfl⟩ := Option.map_eq_some_iff.mp hs
    exact step_inv hi ht

/-! ## The order of the waits -/

/-- The calls that were popped, then those that are queued. -/
def line (s : State) (h : Trace) : List ℕ :=
  h.popped ++ s.waiters.map h.owner

/-- The caller is to join the queue. -/
@[grind =]
def Pc.joins : Pc → Bool
  | .build _ | .append _ _ => true
  | _ => false

structure InLine (s : State) (h : Trace) : Prop where
  sorted : (line s h).Pairwise (· < ·)
  popped : ∀ n, (s.pc n).early = true → ∀ c ∈ h.popped, c < h.call n
  queued : ∀ n, (s.pc n).joins = true → ∀ p ∈ s.waiters, h.owner p < h.call n

theorem inLine_init : InLine init Trace.init :=
  ⟨List.Pairwise.nil, by rintro _ ⟨⟩, by rintro _ ⟨⟩⟩

section Order

variable {s t : State} {h h' : Trace} {n : ℕ} {q : Pc}

theorem holds_of_early {x : Pc} (hx : x.early = true) : x.holds = true := by
  cases x <;> first | rfl | cases hx

theorem early_of_joins {x : Pc} (hx : x.joins = true) : x.early = true := by
  cases x <;> first | rfl | cases hx

/-- Only the holder of the lock can be about to join the queue. -/
theorem InLine.of_holder (ht : Inv t h) (hheld : (t.pc n).holds = true)
    (hsorted : (line t h).Pairwise (· < ·))
    (hpopped : (t.pc n).early = true → ∀ c ∈ h.popped, c < h.call n)
    (hqueued : (t.pc n).joins = true → ∀ p ∈ t.waiters, h.owner p < h.call n) : InLine t h := by
  constructor
  case sorted => exact hsorted
  case popped =>
    intro m hm
    have hmn := ht.alone hheld (holds_of_early hm)
    subst hmn
    exact hpopped hm
  case queued =>
    intro m hm
    have hmn := ht.alone hheld (holds_of_early (early_of_joins hm))
    subst hmn
    exact hqueued hm

/-- A step that leaves the queue alone. -/
theorem InLine.move (hl : InLine s h) (hpc : t.pc = fun m => if m = n then q else s.pc m)
    (hwaiters : t.waiters = s.waiters) (hpopped : h'.popped = h.popped) (howner : h'.owner = h.owner)
    (hcall : h'.call = h.call) (hearly : q.early = true → (s.pc n).early = true)
    (hjoins : q.joins = true → ∀ p ∈ s.waiters, h.owner p < h.call n) : InLine t h' := by
  constructor
  case sorted =>
    rw [line, hwaiters, hpopped, howner]
    exact hl.sorted
  case popped =>
    rw [hpopped, hcall]
    exact forall_pc (P := fun m x => x.early = true → ∀ c ∈ h.popped, c < h.call m) hpc
      (fun hq => hl.popped n (hearly hq)) fun m _ => hl.popped m
  case queued =>
    rw [hwaiters, howner, hcall]
    exact forall_pc (P := fun m x => x.joins = true → ∀ p ∈ s.waiters, h.owner p < h.call m) hpc
      hjoins fun m _ => hl.queued m

/-- What is popped goes on in the line. -/
theorem InLine.pop (hl : InLine s h) (out : List ℕ) (rounds : List Round) {rest : List ℕ}
    (ht : Inv (State.goto { s with waiters := rest } n q) { h.pop out with rounds := rounds })
    (hq : q.holds = true) (hearly : q.early = false) (hout : s.waiters = out ++ rest) :
    InLine (State.goto { s with waiters := rest } n q) { h.pop out with rounds := rounds } := by
  have hn : (State.goto { s with waiters := rest } n q).pc n = q := by simp [State.goto]
  refine InLine.of_holder (n := n) ht (by rw [hn]; exact hq) ?_ ?_ ?_
  · have hline : line (State.goto { s with waiters := rest } n q)
        { h.pop out with rounds := rounds } = line s h := by
      simp only [line, State.goto, Trace.pop, hout, List.map_append, List.append_assoc]
    rw [hline]
    exact hl.sorted
  · rw [hn, hearly]
    rintro ⟨⟩
  · rw [hn]
    intro hj
    rw [early_of_joins hj] at hearly
    cases hearly

theorem InLine.wait (hi : Inv s h) (hl : InLine s h) {r : Option Bool} {timed : Bool}
    (hn : s.pc n = .inside r) :
    InLine (s.goto n (.build ⟨s.count, timed⟩)) (h.record s t (.wait n timed)) := by
  have hcall : (h.record s t (.wait n timed)).call n = h.calls := update_self ..
  refine InLine.of_holder (n := n) (hi.wait hn) (by simp [State.goto, Pc.holds]) hl.sorted ?_ ?_
  · intro _ c hc
    rw [hcall]
    exact hi.past c hc
  · intro _ p hp
    obtain ⟨m, w, -, hw, ho, -⟩ := hi.owner_queued hp
    rw [hcall]
    exact ho ▸ (hi.call m w hw).1

theorem InLine.build (hi : Inv s h) (hl : InLine s h) {w : Wait} (hn : s.pc n = .build w) :
    InLine (State.goto { s with parkers := s.parkers + 1 } n (.append w s.parkers))
      { h with owner := update h.owner s.parkers (h.call n) } := by
  -- the new parker is not queued
  have howner : ∀ p ∈ s.waiters, update h.owner s.parkers (h.call n) p = h.owner p := by
    intro p hp
    obtain ⟨m, -, hm, -⟩ := hi.owner_queued hp
    exact update_of_ne (Nat.ne_of_lt (hi.own m p (own_of_entry hm)).1) _ _
  refine InLine.of_holder (n := n) (hi.build hn) (by simp [State.goto, Pc.holds]) ?_ ?_ ?_
  · have hmap : s.waiters.map (update h.owner s.parkers (h.call n)) =
        s.waiters.map h.owner := List.map_congr_left howner
    simp only [line, State.goto, hmap]
    exact hl.sorted
  · exact fun _ => hl.popped n (by rw [hn]; rfl)
  · intro _ p hp
    exact lt_of_eq_of_lt (howner p hp) (hl.queued n (by rw [hn]; rfl) p hp)

theorem InLine.append (hi : Inv s h) (hl : InLine s h) {w : Wait} {p : ℕ}
    (hn : s.pc n = .append w p) :
    InLine (State.goto { s with waiters := s.waiters ++ [p] } n (.unlock w p)) h := by
  have howner : h.owner p = h.call n := (hi.own n p (by rw [hn]; rfl)).2
  refine InLine.of_holder (n := n) (hi.append hn) (by simp [State.goto, Pc.holds]) ?_ ?_ ?_
  · have hline : line (State.goto { s with waiters := s.waiters ++ [p] } n (.unlock w p)) h =
        line s h ++ [h.call n] := by
      simp [line, State.goto, howner]
    rw [hline]
    refine List.pairwise_append.mpr ⟨hl.sorted, List.pairwise_singleton _ _, ?_⟩
    intro c hc d hd
    rw [List.mem_singleton.mp hd]
    rcases List.mem_append.mp hc with hc | hc
    · exact hl.popped n (by rw [hn]; rfl) c hc
    · obtain ⟨p', hp', rfl⟩ := List.mem_map.mp hc
      exact hl.queued n (by rw [hn]; rfl) p' hp'
  · simp [State.goto, Pc.early]
  · simp [State.goto, Pc.joins]

theorem InLine.erase (hi : Inv s h) (hl : InLine s h) {w : Wait} {p : ℕ} (hn : s.pc n = .remove w p)
    (hp : p ∈ s.waiters) :
    InLine (State.goto { s with waiters := s.waiters.erase p } n (.recheck w)) h := by
  refine InLine.of_holder (n := n) (hi.erase hn hp) (by simp [State.goto, Pc.holds]) ?_ ?_ ?_
  · refine hl.sorted.sublist ?_
    exact List.Sublist.append_left (List.Sublist.map _ List.erase_sublist) _
  · intro _ c hc
    -- all that were popped stood before the parker
    rw [← (hi.own n p (by rw [hn]; rfl)).2]
    exact (List.pairwise_append.mp hl.sorted).2.2 c hc _ (List.mem_map_of_mem hp)
  · simp [State.goto, Pc.joins]

theorem callerStep_inLine (hi : Inv s h) (hl : InLine s h)
    (hok : overtaken (s, h) (.caller n) = false) (hs : callerStep s n = some t) :
    InLine t (h.caller s t n) := by
  have ht := callerStep_inv hi hs
  unfold callerStep at hs
  unfold Trace.caller at ht ⊢
  split at hs
  case h_1 w hpc =>
    cases hs
    rw [hpc]
    exact hl.build hi hpc
  case h_2 w p hpc =>
    cases hs
    rw [hpc]
    exact hl.append hi hpc
  case h_3 w p hpc | h_5 w p hpc | h_9 w p hpc | h_10 hpc | h_12 hpc | h_13 p ps hpc =>
    cases hs
    rw [hpc]
    exact hl.move rfl rfl rfl rfl rfl (by rintro ⟨⟩) (by rintro ⟨⟩)
  case h_4 w p hpc | h_6 w p hpc =>
    split at hs
    case isTrue =>
      cases hs
      rw [hpc]
      exact hl.move rfl rfl rfl rfl rfl (by rintro ⟨⟩) (by rintro ⟨⟩)
    case isFalse => cases hs
  case h_7 w p hpc =>
    split at hs
    case isTrue hp =>
      cases hs
      rw [hpc]
      exact hl.erase hi hpc hp
    case isFalse hp =>
      cases hs
      rw [hpc]
      exact hl.move rfl rfl rfl rfl rfl (by rintro ⟨⟩) (by rintro ⟨⟩)
  case h_8 w hpc =>
    cases hs
    rw [hpc]
    refine hl.move rfl rfl rfl rfl rfl (fun _ => by rw [hpc]; rfl) ?_
    -- no queued wait began later, and none is the caller's own
    intro _ p hp
    simp only [overtaken, hpc, List.any_eq_false, decide_eq_true_eq, Nat.not_lt] at hok
    refine Nat.lt_of_le_of_ne (hok p hp) fun he => ?_
    have hn := hi.entry_of_owner (m := n) (w := w) hp (by rw [hpc]; rfl) he
    rw [hpc] at hn
    cases hn
  case h_11 k woke hpc =>
    rw [hpc] at ht ⊢
    split at hs
    case h_1 hw =>
      cases hs
      simp only [hw]
      exact hl.move rfl rfl rfl rfl rfl (by rintro ⟨⟩) (by rintro ⟨⟩)
    case h_2 p ps hw =>
      cases hs
      simp only [hw] at ht ⊢
      exact hl.pop [p] h.rounds ht rfl rfl hw
  case h_14 => cases hs

theorem step_inLine {a : Action} (hi : Inv s h) (hl : InLine s h)
    (hok : overtaken (s, h) a = false) (hs : step s a = some t) : InLine t (h.record s t a) := by
  have ht := step_inv hi hs
  cases a with
  | caller n => exact callerStep_inLine hi hl hok hs
  | lock n =>
    simp only [step] at hs
    split at hs
    case h_1 =>
      split at hs
      case isTrue =>
        cases hs
        exact hl.move rfl rfl rfl rfl rfl (by rintro ⟨⟩) (by rintro ⟨⟩)
      case isFalse => cases hs
    case h_2 =>
      cases hs
      exact ⟨hl.sorted, hl.popped, hl.queued⟩
    case h_3 => cases hs
  | unlock n =>
    simp only [step] at hs
    split at hs
    case h_1 =>
      split at hs
      · cases hs
        exact hl.move rfl rfl rfl rfl rfl (by rintro ⟨⟩) (by rintro ⟨⟩)
      · cases hs
        exact ⟨hl.sorted, hl.popped, hl.queued⟩
    case h_2 => cases hs
  | wait n timed =>
    simp only [step] at hs
    split at hs
    case h_1 r hpc =>
      cases hs
      exact hl.wait hi hpc
    case h_2 => cases hs
  | notify n | spurious n | expire n =>
    simp only [step] at hs
    split at hs
    case h_1 =>
      cases hs
      exact hl.move rfl rfl rfl rfl rfl (by rintro ⟨⟩) (by rintro ⟨⟩)
    case h_2 => cases hs
  | notifyAll n =>
    simp only [step] at hs
    split at hs
    case h_1 r hpc =>
      cases hs
      exact hl.pop _ _ ht rfl rfl (List.append_nil _).symm
    case h_2 => cases hs

end Order

theorem reachable_inLine {x : State × Trace} (hr : Reachable punctual x) : InLine x.1 x.2 := by
  refine Reachable.invariant (P := fun x => InLine x.1 x.2) ?_ ?_ hr
  · rintro x rfl
    exact inLine_init
  · intro x a y hx hl hs
    obtain ⟨hok, hs⟩ := System.restrict_step.mp hs
    obtain ⟨t, ht, rfl⟩ := Option.map_eq_some_iff.mp hs
    exact step_inLine (reachable_inv hx.of_restrict) hl hok ht

/-! ## What a notify and a wait promise -/

/-- A wait returned with the lock, as deep as before, and True exactly when a notify popped it. -/
structure Returned (s : State) (h : Trace) (r : Return) : Prop where
  held : r.held = true
  depth : r.depth = h.depth r.call
  result : r.result = true ↔ r.call ∈ h.popped
  untimed : h.timed r.call = false → r.call ∈ h.popped
  gone : ∀ p ∈ s.waiters, h.owner p ≠ r.call

structure Promise (s : State) (h : Trace) : Prop where
  /-- a notify pops as many as it was asked for, or all, from the front -/
  rounds : ∀ x ∈ h.rounds, x.woke = x.queued.take x.asked ∧
    x.woke.length = min x.asked x.queued.length
  /-- a wait is popped once, after every wait that began before it and is popped or queued -/
  longest : (line s h).Pairwise (· < ·)
  /-- a popped wait has a wake, or a notifier that owes it one -/
  awake : ∀ n p, (s.pc n).sleeps = some p → h.call n ∈ h.popped →
    s.wake p = true ∨ ∃ m, p ∈ (s.pc m).bound
  /-- a popped wait can only return True -/
  verdict : ∀ n w r, s.pc n = .restore w r → (r = true ↔ h.call n ∈ h.popped)
  returns : ∀ r ∈ h.returns, Returned s h r

theorem Inv.returned (hi : Inv s h) {r : Return} (hr : r ∈ h.returns) :
    Returned s h r := by
  obtain ⟨-, hres, hheld, hdepth, htimed, hother⟩ := hi.returns r hr
  refine ⟨hheld, hdepth, hres, fun hu => hres.mp (htimed hu), ?_⟩
  intro p hp he
  obtain ⟨m, w, -, hw, ho, -⟩ := hi.owner_queued hp
  exact hother m w hw (ho.symm.trans he)

theorem Inv.promise (hi : Inv s h)
    (hline : (line s h).Pairwise (· < ·)) : Promise s h := by
  constructor
  case rounds =>
    intro x hx
    refine ⟨hi.rounds x hx, ?_⟩
    rw [hi.rounds x hx, List.length_take]
  case longest => exact hline
  case awake =>
    intro n p hp hpop
    have hout : p ∉ s.waiters := fun hq => (hi.entry n p (entry_of_sleeps hp)).mp hq hpop
    exact (hi.awake n p hp).resolve_left hout
  case verdict =>
    intro n w r hn
    exact (hi.verdict n w r (by rw [hn]; rfl)).1
  case returns => exact fun r hr => hi.returned hr

/-- In every run in which no wait is overtaken, the notifies release the longest-waiting
waits, as many as they were asked for, and the waits return as they should. -/
theorem reachable_promise {x : State × Trace} (hr : Reachable punctual x) :
    Promise x.1 x.2 :=
  (reachable_inv hr.of_restrict).promise (reachable_inLine hr).sorted

/-- Caller 1 times out, and a notify of three pops caller 0, whose lock was taken twice. -/
theorem reachable_promise_returns :
    ∃ x, Reachable punctual x ∧
      x.2.returns = [⟨1, false, true, 1⟩, ⟨0, true, true, 2⟩] ∧ Promise x.1 x.2 := by
  have hr : Reachable punctual _ := reachable_of_run punctual
    [.lock 0, .lock 0, .wait 0 false, .caller 0, .caller 0, .caller 0,
      .lock 1, .wait 1 true, .caller 1, .caller 1, .caller 1,
      .spurious 1, .caller 1, .caller 1, .caller 1, .expire 1, .caller 1, .unlock 1,
      .lock 2, .notify 2 3, .caller 2, .caller 2, .caller 2, .caller 2, .unlock 2,
      .caller 0, .caller 0, .caller 0, .caller 0, .caller 0] rfl rfl
  exact ⟨_, hr, rfl, reachable_promise hr⟩

/-- The park of caller 0 returns with no notify: it queues again behind caller 1, whose
wait began later, and the next notify pops caller 1. -/
theorem notify_pops_later :
    ∃ x, Reachable traced x ∧ x.2.rounds = [⟨1, [1, 2], [1]⟩] ∧ x.2.popped = [1] ∧
      x.1.waiters.map x.2.owner = [0] ∧ ¬ Promise x.1 x.2 := by
  have hr : Reachable traced _ := reachable_of_run traced
    [.lock 0, .wait 0 false, .caller 0, .caller 0, .caller 0,
      .lock 1, .wait 1 false, .caller 1, .caller 1, .caller 1,
      .spurious 0, .caller 0, .caller 0, .caller 0, .caller 0, .caller 0, .caller 0, .caller 0,
      .lock 2, .notify 2 1, .caller 2, .caller 2] rfl rfl
  refine ⟨_, hr, rfl, rfl, rfl, fun hp => ?_⟩
  have hline : [1, 0].Pairwise (· < ·) := hp.longest
  exact absurd hline (by decide)

end Stackweave.Monkey.Condition
