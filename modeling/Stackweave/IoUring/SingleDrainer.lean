import Mathlib.Data.Nat.Notation
import Mathlib.Tactic.Common
import Stackweave.Transition

/-!
# The single drainer of the global ring (`runloom_iouring_drain`)

Any number of threads in `runloom_iouring_drain` against a kernel that posts
completions: into the completion queue while it has room, else onto the overflow list
with `IORING_SQ_CQ_OVERFLOW` set, each with one added to the eventfd. A `GETEVENTS`
enter moves as many overflowed completions into the queue as fit. Each load, store,
exchange and system call of the drain is one step; a completion is only counted, and
`cq_head` and `cq_tail` do not wrap.
-/

namespace Stackweave.IoUring.SingleDrainer

open Transition

/-- What a thread in `runloom_iouring_drain` does next. -/
inductive Pc
  | idle
  | read
  | exchange
  | loadFlags
  | getEvents
  | loadHead
  | loadTail (head : ℕ)
  | consume (head : ℕ)
  | clear
  | recheckHead
  | recheckTail (head : ℕ)
  | again
  deriving DecidableEq

structure State where
  cqHead : ℕ
  cqTail : ℕ
  overflow : ℕ
  overflowed : Bool
  eventfd : ℕ
  draining : Bool
  pc : ℕ → Pc

def init : State := ⟨0, 0, 0, false, 0, false, fun _ => .idle⟩

inductive Action
  | post
  | call (d : ℕ)
  | step (d : ℕ)

def State.goto (s : State) (d : ℕ) (p : Pc) : State :=
  { s with pc := Function.update s.pc d p }

variable (entries : ℕ)

/-- The kernel posts a completion. -/
def post (s : State) : State :=
  if s.cqTail - s.cqHead < entries then
    { s with cqTail := s.cqTail + 1, eventfd := s.eventfd + 1 }
  else
    { s with overflow := s.overflow + 1, overflowed := true, eventfd := s.eventfd + 1 }

/-- The kernel's side of a `GETEVENTS` enter. -/
def flush (s : State) : State :=
  let moved := min s.overflow (entries - (s.cqTail - s.cqHead))
  { s with
    cqTail := s.cqTail + moved
    overflow := s.overflow - moved
    overflowed := s.overflow - moved ≠ 0 }

/-- The exchange on `draining`: win it or return. -/
def State.exchange (s : State) (d : ℕ) : State :=
  if s.draining then s.goto d .idle
  else { s.goto d .loadFlags with draining := true }

/-- One step of `runloom_iouring_drain`, with `runloom_iouring_flush_cq_overflow` in
`loadFlags` and `getEvents`. -/
def drainStep (s : State) (d : ℕ) : Option State :=
  match s.pc d with
  | .idle => none
  | .read =>
    if s.eventfd = 0 then some (s.goto d .exchange) else some { s with eventfd := 0 }
  | .exchange => some (s.exchange d)
  | .loadFlags => some (s.goto d (if s.overflowed then .getEvents else .loadHead))
  | .getEvents => some ((flush entries s).goto d .loadHead)
  | .loadHead => some (s.goto d (.loadTail s.cqHead))
  | .loadTail head => some (s.goto d (if head = s.cqTail then .clear else .consume head))
  | .consume head => some { s.goto d .loadHead with cqHead := head + 1 }
  | .clear => some { s.goto d .recheckHead with draining := false }
  | .recheckHead => some (s.goto d (.recheckTail s.cqHead))
  | .recheckTail head => some (s.goto d (if head = s.cqTail then .idle else .again))
  | .again => some (s.exchange d)

@[grind =]
def step (s : State) : Action → Option State
  | .post => some (post entries s)
  | .call d => if s.pc d = .idle then some (s.goto d .read) else none
  | .step d => drainStep entries s d

def system : System State Action where
  init := fun s => s = init
  step := step entries

/-- A completion waits, the eventfd is down and nobody is in the drain. -/
def Stranded (s : State) : Prop :=
  (s.cqHead < s.cqTail ∨ 0 < s.overflow) ∧ s.eventfd = 0 ∧ ∀ d, s.pc d = .idle

/-- No re-check that finds the queue empty comes while `IORING_SQ_CQ_OVERFLOW` is set. -/
def rechecked (s : State) : Action → Bool
  | .step d =>
    match s.pc d with
    | .recheckTail head => !(head == s.cqTail && s.overflowed)
    | _ => true
  | _ => true

/-! ## Who drains -/

/-- Between winning the flag and clearing it. -/
@[grind =]
def Pc.holds : Pc → Bool
  | .loadFlags | .getEvents | .loadHead | .loadTail _ | .consume _ | .clear => true
  | _ => false

/-- What a thread knows of the head it has loaded. -/
@[grind =]
def Pc.Loaded (s : State) : Pc → Prop
  | .loadTail head => head = s.cqHead
  | .consume head => head = s.cqHead ∧ head < s.cqTail
  | .recheckTail head => head ≤ s.cqHead
  | _ => True

structure Ok (s : State) : Prop where
  holder : s.draining = true → ∃ d, (s.pc d).holds = true
  flag : ∀ d, (s.pc d).holds = true → s.draining = true
  alone : ∀ d d', (s.pc d).holds = true → (s.pc d').holds = true → d = d'
  order : s.cqHead ≤ s.cqTail
  loaded : ∀ d, (s.pc d).Loaded s
  overflowed : s.overflowed = true ↔ 0 < s.overflow
  -- whatever waits, the eventfd is up or somebody is in the drain
  awake : (s.cqHead < s.cqTail ∨ 0 < s.overflow) → s.eventfd = 0 → ∃ d, s.pc d ≠ .idle

theorem init_ok : Ok init := by
  refine ⟨?_, ?_, ?_, Nat.le_refl _, fun _ => trivial, by decide, ?_⟩
  · intro h
    cases h
  · intro d h
    cases h
  · intro d d' h
    cases h
  · rintro (h | h) <;> cases h

section

variable {s t : State} {d : ℕ} {p : Pc}

theorem goto_self (s : State) (d : ℕ) (p : Pc) : (s.goto d p).pc d = p :=
  Function.update_self _ _ _

theorem goto_other (s : State) (p : Pc) {d d' : ℕ} (h : d' ≠ d) :
    (s.goto d p).pc d' = s.pc d' :=
  Function.update_of_ne h _ _

/-- A thread goes on without winning or clearing the flag. -/
theorem Ok.goto (h : Ok s) (hholds : p.holds = (s.pc d).holds) (hload : p.Loaded s)
    (hleave : p = .idle → (s.cqHead < s.cqTail ∨ 0 < s.overflow) → s.eventfd = 0 →
      ∃ d' ≠ d, s.pc d' ≠ .idle) : Ok (s.goto d p) := by
  have hsame : ∀ d', ((s.goto d p).pc d').holds = (s.pc d').holds := by
    intro d'
    by_cases hd : d' = d
    · subst hd
      rw [goto_self, hholds]
    · rw [goto_other s p hd]
  refine ⟨?_, ?_, ?_, h.order, ?_, h.overflowed, ?_⟩
  · intro hdraining
    obtain ⟨d', hd'⟩ := h.holder hdraining
    exact ⟨d', (hsame d').trans hd'⟩
  · intro d' hd'
    exact h.flag d' ((hsame d').symm.trans hd')
  · intro d₁ d₂ h₁ h₂
    exact h.alone d₁ d₂ ((hsame d₁).symm.trans h₁) ((hsame d₂).symm.trans h₂)
  · intro d'
    by_cases hd : d' = d
    · subst hd
      rw [goto_self]
      exact hload
    · rw [goto_other s p hd]
      exact h.loaded d'
  · intro hwaits heventfd
    by_cases hp : p = .idle
    · obtain ⟨d', hne, hd'⟩ := hleave hp hwaits heventfd
      exact ⟨d', by rw [goto_other s p hne]; exact hd'⟩
    · exact ⟨d, by rw [goto_self]; exact hp⟩

/-- A thread wins the flag. -/
theorem Ok.win (h : Ok s) (hfree : s.draining = false) :
    Ok { s.goto d .loadFlags with draining := true } := by
  have hnone : ∀ d', (s.pc d').holds = true → False := by
    intro d' hd'
    have := h.flag d' hd'
    rw [hfree] at this
    cases this
  have honly : ∀ d', ((s.goto d .loadFlags).pc d').holds = true → d' = d := by
    intro d' hd'
    by_contra hne
    rw [goto_other s _ hne] at hd'
    exact hnone d' hd'
  refine ⟨fun _ => ⟨d, ?_⟩, fun _ _ => rfl, ?_, h.order, ?_, h.overflowed, fun _ _ => ⟨d, ?_⟩⟩
  · change ((s.goto d .loadFlags).pc d).holds = true
    rw [goto_self]
    rfl
  · intro d₁ d₂ h₁ h₂
    rw [honly d₁ h₁, honly d₂ h₂]
  · intro d'
    change ((s.goto d .loadFlags).pc d').Loaded s
    by_cases hd : d' = d
    · subst hd
      rw [goto_self]
      trivial
    · rw [goto_other s _ hd]
      exact h.loaded d'
  · change (s.goto d .loadFlags).pc d ≠ .idle
    rw [goto_self]
    simp

/-- A thread that loses the flag leaves to the holder what it has swallowed. -/
theorem Ok.exchange (h : Ok s) (hd : (s.pc d).holds = false) : Ok (s.exchange d) := by
  unfold State.exchange
  split
  · rename_i hdraining
    refine h.goto (by rw [hd]; rfl) trivial ?_
    intro _ _ _
    obtain ⟨d', hd'⟩ := h.holder hdraining
    refine ⟨d', ?_, ?_⟩
    · rintro rfl
      rw [hd] at hd'
      cases hd'
    · intro hidle
      rw [hidle] at hd'
      cases hd'
  · rename_i hdraining
    exact h.win (by simpa using hdraining)

/-- The holder clears the flag. -/
theorem Ok.clear (h : Ok s) (hpc : s.pc d = .clear) :
    Ok { s.goto d .recheckHead with draining := false } := by
  have hd : (s.pc d).holds = true := by
    rw [hpc]
    rfl
  have hnone : ∀ d', ((s.goto d .recheckHead).pc d').holds = true → False := by
    intro d' hd'
    by_cases hne : d' = d
    · subst hne
      rw [goto_self] at hd'
      cases hd'
    · rw [goto_other s _ hne] at hd'
      exact hne (h.alone d' d hd' hd)
  refine ⟨?_, fun d' hd' => (hnone d' hd').elim, fun d₁ _ h₁ => (hnone d₁ h₁).elim, h.order, ?_,
    h.overflowed, fun _ _ => ⟨d, ?_⟩⟩
  · intro hdraining
    cases hdraining
  · intro d'
    change ((s.goto d .recheckHead).pc d').Loaded s
    by_cases hne : d' = d
    · subst hne
      rw [goto_self]
      trivial
    · rw [goto_other s _ hne]
      exact h.loaded d'
  · change (s.goto d .recheckHead).pc d ≠ .idle
    rw [goto_self]
    simp

/-- The queue grows, while somebody is in the drain or the eventfd is up. -/
theorem Ok.grow (h : Ok s) (hpc : t.pc = s.pc) (hdraining : t.draining = s.draining)
    (hhead : t.cqHead = s.cqHead) (htail : s.cqTail ≤ t.cqTail)
    (hover : t.overflowed = true ↔ 0 < t.overflow)
    (hawake : t.eventfd = 0 → ∃ d, s.pc d ≠ .idle) : Ok t := by
  refine ⟨?_, ?_, ?_, ?_, ?_, hover, fun _ heventfd => ?_⟩
  · rw [hdraining, hpc]
    exact h.holder
  · rw [hdraining, hpc]
    exact h.flag
  · rw [hpc]
    exact h.alone
  · rw [hhead]
    exact Nat.le_trans h.order htail
  · intro d
    have := h.loaded d
    rw [hpc]
    cases hd : s.pc d <;> rw [hd] at this <;> simp only [Pc.Loaded] at this ⊢ <;> omega
  · rw [hpc]
    exact hawake heventfd

end

theorem post_ok {s : State} (h : Ok s) : Ok (post entries s) := by
  unfold post
  split
  · refine h.grow rfl rfl rfl (Nat.le_succ _) h.overflowed ?_
    intro heventfd
    cases heventfd
  · refine h.grow rfl rfl rfl (Nat.le_refl _) ?_ ?_
    · simp
    · intro heventfd
      cases heventfd

theorem flush_ok {s : State} {d : ℕ} (h : Ok s) (hpc : s.pc d ≠ .idle) : Ok (flush entries s) := by
  refine h.grow rfl rfl rfl (Nat.le_add_right _ _) ?_ (fun _ => ⟨d, hpc⟩)
  simp only [flush, decide_eq_true_eq]
  exact Nat.pos_iff_ne_zero.symm

/-- The holder takes the completion at the head that it has loaded. -/
theorem consume_ok {s : State} {d head : ℕ} (h : Ok s) (hpc : s.pc d = .consume head) :
    Ok { s.goto d .loadHead with cqHead := head + 1 } := by
  have hload := h.loaded d
  rw [hpc] at hload
  obtain ⟨rfl, hlt⟩ := hload
  have hd : (s.pc d).holds = true := by
    rw [hpc]
    rfl
  have hgoto : Ok (s.goto d .loadHead) :=
    h.goto (by rw [hd]; rfl) trivial (fun hp => by cases hp)
  refine ⟨hgoto.holder, hgoto.flag, hgoto.alone, hlt, ?_, h.overflowed, ?_⟩
  · intro d'
    by_cases hne : d' = d
    · subst hne
      change ((s.goto d' .loadHead).pc d').Loaded _
      rw [goto_self]
      trivial
    · -- the other threads do not hold the flag, so at most they re-check
      change ((s.goto d .loadHead).pc d').Loaded _
      rw [goto_other s _ hne]
      have hother : ¬ (s.pc d').holds = true := fun hd' => hne (h.alone d' d hd' hd)
      have := h.loaded d'
      cases hd' : s.pc d' <;> rw [hd'] at this hother <;> simp [Pc.holds] at hother <;>
        simp only [Pc.Loaded] at this ⊢
      omega
  · intro _ _
    refine ⟨d, ?_⟩
    change (s.goto d .loadHead).pc d ≠ .idle
    rw [goto_self]
    simp

theorem drainStep_ok {s t : State} {d : ℕ} (h : Ok s) (hok : rechecked s (.step d) = true)
    (hstep : drainStep entries s d = some t) : Ok t := by
  have hload := h.loaded d
  unfold drainStep at hstep
  split at hstep <;> rename_i hpc <;> rw [hpc] at hload
  · cases hstep
  · -- read
    split at hstep <;> cases hstep
    · exact h.goto (by rw [hpc]; rfl) trivial (fun hp => by cases hp)
    · exact h.grow rfl rfl rfl (Nat.le_refl _) h.overflowed (fun _ => ⟨d, by rw [hpc]; simp⟩)
  · cases hstep
    exact h.exchange (by rw [hpc]; rfl)
  · cases hstep
    refine h.goto ?_ ?_ ?_ <;> split <;> first | rw [hpc]; rfl | trivial | intro hp; cases hp
  · cases hstep
    have hflush := flush_ok entries h (by rw [hpc]; simp)
    exact hflush.goto (by change _ = (s.pc d).holds; rw [hpc]; rfl) trivial (fun hp => by cases hp)
  · cases hstep
    exact h.goto (by rw [hpc]; rfl) rfl (fun hp => by cases hp)
  · rename_i head
    cases hstep
    have horder := h.order
    refine h.goto ?_ ?_ ?_ <;> split
    · rw [hpc]; rfl
    · rw [hpc]; rfl
    · trivial
    · rename_i hne
      obtain rfl : head = s.cqHead := hload
      exact ⟨rfl, Nat.lt_of_le_of_ne horder hne⟩
    · intro hp; cases hp
    · intro hp; cases hp
  · cases hstep
    exact consume_ok h hpc
  · cases hstep
    exact h.clear hpc
  · cases hstep
    exact h.goto (by rw [hpc]; rfl) (Nat.le_refl _) (fun hp => by cases hp)
  · -- the re-check lets the thread go only if nothing waits, neither here nor there
    rename_i head
    cases hstep
    have hle : head ≤ s.cqHead := hload
    have horder := h.order
    by_cases heq : head = s.cqTail
    · rw [if_pos heq]
      refine h.goto (by rw [hpc]; rfl) trivial ?_
      intro _ hwaits _
      have hclear : s.overflowed = false := by
        simpa [rechecked, hpc, heq] using hok
      have hover : ¬ 0 < s.overflow := by
        intro hpos
        rw [h.overflowed.mpr hpos] at hclear
        cases hclear
      omega
    · rw [if_neg heq]
      exact h.goto (by rw [hpc]; rfl) trivial (fun hp => by cases hp)
  · cases hstep
    exact h.exchange (by rw [hpc]; rfl)

theorem step_ok {s t : State} {x : Action} (h : Ok s) (hok : rechecked s x = true)
    (hstep : step entries s x = some t) : Ok t := by
  cases x with
  | post =>
    cases hstep
    exact post_ok entries h
  | call d =>
    obtain ⟨hidle, hstep⟩ := Option.ite_none_right_eq_some.mp hstep
    cases hstep
    exact h.goto (by rw [hidle]; rfl) trivial (fun hp => by cases hp)
  | step d => exact drainStep_ok entries h hok hstep

/-- The runs in which no re-check that finds the queue empty comes while completions are
on the overflow list. -/
def recheckedSystem : System State Action :=
  (system entries).restrict fun s x => rechecked s x = true

theorem reachable_ok {s : State} (h : Reachable (recheckedSystem entries) s) : Ok s := by
  refine Reachable.invariant (P := Ok) ?_ ?_ h
  · rintro s rfl
    exact init_ok
  · intro s x t _ hs hstep
    obtain ⟨hok, hstep⟩ := System.restrict_step.mp hstep
    exact step_ok entries hs hok hstep

/-- In every such run, with any number of threads, no completion is ever stranded. -/
theorem drainer_strands_nothing {s : State} (h : Reachable (recheckedSystem entries) s) :
    ¬ Stranded s := by
  rintro ⟨hwaits, heventfd, hidle⟩
  obtain ⟨d, hd⟩ := (reachable_ok entries h).awake hwaits heventfd
  exact hd (hidle d)

/-- A completion comes while a drainer is about to clear the flag; a second thread swallows
its notification and loses the flag, and the re-check finds it. -/
def swallowed : List Action :=
  [.call 0, .step 0, .step 0, .step 0, .step 0, .step 0, .post, .call 1, .step 1, .step 1, .step 1,
    .step 0, .step 0, .step 0, .step 0, .step 0, .step 0, .step 0]

theorem drainer_strands_nothing_swallowed :
    ∃ s, (recheckedSystem 2).run init swallowed = some s ∧ s.eventfd = 0 ∧ s.cqTail = 1 ∧
      s.pc 0 = .consume 0 ∧ s.pc 1 = .idle ∧ ¬ Stranded s := by
  obtain ⟨s, hs, heventfd, htail, hwinner, hloser⟩ :
      ∃ s, (recheckedSystem 2).run init swallowed = some s ∧ s.eventfd = 0 ∧ s.cqTail = 1 ∧
        s.pc 0 = .consume 0 ∧ s.pc 1 = .idle :=
    ⟨_, rfl, rfl, rfl, rfl, rfl⟩
  exact ⟨s, hs, heventfd, htail, hwinner, hloser,
    drainer_strands_nothing 2 (reachable_of_run _ _ rfl hs)⟩

/-! ## What overflows is stranded -/

/-- After `n` completions and before any drain. -/
def posted (n : ℕ) : State :=
  ⟨0, min n entries, n - entries, entries < n, n, false, fun _ => .idle⟩

theorem post_posted (n : ℕ) : post entries (posted entries n) = posted entries (n + 1) := by
  by_cases hroom : (posted entries n).cqTail - (posted entries n).cqHead < entries
  · rw [post, if_pos hroom]
    have hlt : n < entries := by
      simp only [posted] at hroom
      omega
    simp only [posted, State.mk.injEq, true_and, and_true, decide_eq_decide]
    omega
  · rw [post, if_neg hroom]
    have hge : entries ≤ n := by
      simp only [posted] at hroom
      omega
    simp only [posted, State.mk.injEq, true_and, and_true, true_eq_decide_iff]
    omega

theorem run_posted (n : ℕ) :
    (system entries).run init (List.replicate n .post) = some (posted entries n) := by
  induction n with
  | zero =>
    simp [System.run, posted, init]
  | succ n ih =>
    rw [List.replicate_succ']
    refine System.run_trans _ ih ?_
    change some (post entries (posted entries n)) = _
    rw [post_posted]

/-- A lone drainer at the top of its walk, with `head` completions behind it. -/
def walking (n head : ℕ) (p : Pc) : State :=
  { posted entries n with
    eventfd := 0, draining := true, cqHead := head, pc := Function.update (fun _ => .idle) 0 p }

theorem walking_step (n : ℕ) {head : ℕ} (hn : entries < n) (hhead : head < entries) :
    (system entries).run (walking entries n head .loadHead) [.step 0, .step 0, .step 0] =
      some (walking entries n (head + 1) .loadHead) := by
  have hmin : min n entries = entries := Nat.min_eq_right (Nat.le_of_lt hn)
  simp [System.run, system, step, drainStep, walking, posted, State.goto, hmin,
    Nat.ne_of_lt hhead]

theorem walking_run (n : ℕ) (hn : entries < n) (k : ℕ) {head : ℕ} (hk : head + k = entries) :
    (system entries).run (walking entries n head .loadHead) (List.replicate (3 * k) (.step 0)) =
      some (walking entries n entries .loadHead) := by
  induction k generalizing head with
  | zero =>
    rw [← hk]
    rfl
  | succ k ih =>
    rw [show 3 * (k + 1) = 3 + 3 * k by omega, ← List.replicate_append_replicate]
    exact System.run_trans _ (walking_step entries n hn (by omega)) (ih (by omega))

/-- The drain of one thread that finds the queue full. -/
def loneDrain : List Action :=
  Action.call 0 :: List.replicate 5 (.step 0) ++ (List.replicate (3 * entries) (Action.step 0) ++
    List.replicate 5 (Action.step 0))

/-- Whatever the size of the queue: when more completions come than it holds, a drain that
nobody disturbs strands all that have overflowed. -/
theorem overflow_stranded (n : ℕ) (hn : entries < n) :
    ∃ s, (system entries).run init (List.replicate n .post ++ loneDrain entries) = some s ∧
      s.overflow = n - entries ∧ Stranded s := by
  have hmin : min n entries = entries := Nat.min_eq_right (Nat.le_of_lt hn)
  have hpos : n ≠ 0 := by omega
  have hleft : n - entries ≠ 0 := by omega
  have hbegin : (system entries).run (posted entries n) (.call 0 :: List.replicate 5 (.step 0)) =
      some (walking entries n 0 .loadHead) := by
    simp [System.run, system, step, drainStep, walking, posted, init, State.goto, State.exchange,
      flush, List.replicate_succ, hmin, hn, hpos, hleft]
  have hend : (system entries).run (walking entries n entries .loadHead)
      (List.replicate 5 (.step 0)) =
        some { walking entries n entries .idle with draining := false } := by
    simp [System.run, system, step, drainStep, walking, posted, State.goto, List.replicate_succ,
      hmin]
  refine ⟨_, System.run_trans _ (run_posted entries n) (System.run_trans _ hbegin
    (System.run_trans _ (walking_run entries n hn entries (Nat.zero_add _)) hend)), rfl, ?_⟩
  refine ⟨Or.inr (Nat.sub_pos_of_lt hn), rfl, ?_⟩
  intro d
  simp [walking]

/-- Three completions for a queue of two, then one drain: the flush finds no room, the walk
empties the queue, and the re-check does not look at the flag again. -/
theorem drainer_strands_overflow : ¬ ∀ s, Reachable (system 2) s → ¬ Stranded s := by
  intro hall
  obtain ⟨s, hs, -, hstranded⟩ := overflow_stranded 2 3 (by decide)
  exact hall s (reachable_of_run _ _ rfl hs) hstranded

end Stackweave.IoUring.SingleDrainer
