import Stackweave.Time.Backing

/-!
# A stopped timer keeps no fiber parked

A fiber publishes its handle, then links its parker, then commits it. `cancel_wait_fd` acts
on a linked parker and does nothing on a fiber that has none yet. In every run in which it
does not meet a fiber in that gap, a fiber that is parked for a dead generation is about to
be woken.
-/

namespace Stackweave.Time

open Transition Function

/-- The fiber is committed in `wait_fd` for a generation that was stopped, superseded or
cancelled, and no call is about to cancel its park. -/
def Stranded (s : State) (f : ℕ) : Prop :=
  s.phase f = .parked ∧ s.Dead f ∧ ∀ c rearm, s.calls c ≠ .cancelling (some f) rearm

/-- A `cancel_wait_fd` on a fiber that is past its check and has no parker yet. -/
def cancelsInGap (s : State) : Action → Bool
  | .cancel c =>
    match s.calls c with
    | .cancelling (some f) _ => s.phase f == .entering
    | _ => false
  | _ => false

def wakeSystem (k : Kind) : System State Action :=
  (system k).restrict fun s a => cancelsInGap s a = false

/-! ## The invariant -/

/-- In `wait_fd`, from the check to the claim of the parker. -/
def Phase.parking : Phase → Bool
  | .entering | .linked | .parked => true
  | _ => false

/-- The handle of the fiber is published. -/
def Phase.published : Phase → Bool
  | .checking | .entering | .linked | .parked | .woken => true
  | _ => false

/-- The call has yet to spawn the fiber of the generation. -/
def Call.rearms : Call → Option ℕ
  | .idle => none
  | .cancelling _ rearm => rearm
  | .spawning gen => some gen

structure Fibers (k : Kind) (s : State) : Prop where
  spawned : ∀ f, s.phase f ≠ .done → f < s.count
  unique : ∀ f g, f < s.count → g < s.count → s.arming f = s.arming g → f = g
  past : ∀ f, f < s.count → s.arming f ≤ s.gen
  rearm : ∀ c gen, (s.calls c).rearms = some gen → gen ≤ s.gen ∧ ∀ f < s.count, s.arming f ≠ gen
  rearmOnce : ∀ c d gen, (s.calls c).rearms = some gen → (s.calls d).rearms = some gen → c = d
  deadline : k = .deadline → s.count = 1 ∧ s.gen = s.arming 0 ∧ ∀ c, (s.calls c).rearms = none
  checking : ∀ f, s.phase f = .checking ∨ s.phase f = .expired → k = .deadline

structure Wakes (s : State) : Prop where
  published : ∀ f, (s.phase f).published = true → ¬ s.Dead f → s.target = some f
  owed : ∀ f, (s.phase f).parking = true → s.Dead f →
    ∃ c rearm, s.calls c = .cancelling (some f) rearm

structure WakeInv (k : Kind) (s : State) : Prop where
  fibers : Fibers k s
  wakes : Wakes s

theorem Phase.published_of_parking {p : Phase} (h : p.parking = true) : p.published = true := by
  cases p <;> first | rfl | cases h

theorem Phase.ne_done {p : Phase} (h : p.published = true) : p ≠ .done := by
  rintro rfl
  cases h

theorem goto_at (s : State) (f : ℕ) (p : Phase) : (s.goto f p).phase f = p :=
  update_self _ _ _

theorem goto_of_ne {s : State} {f g : ℕ} (p : Phase) (h : g ≠ f) :
    (s.goto f p).phase g = s.phase g :=
  update_of_ne h _ _

section Steps

variable {k : Kind} {s t : State} {f c : ℕ} {p : Phase}

/-- Two fibers of the live generation are one. -/
theorem Fibers.live_unique (h : Fibers k s) {g : ℕ} (hf : s.phase f ≠ .done)
    (hg : s.phase g ≠ .done) (hfl : ¬ s.Dead f) (hgl : ¬ s.Dead g) : g = f := by
  have hgen : ∀ x, ¬ s.Dead x → s.gen = s.arming x := fun x hx => by
    by_contra hne
    exact hx (.inr hne)
  exact h.unique g f (h.spawned g hg) (h.spawned f hf) ((hgen g hgl).symm.trans (hgen f hfl))

/-- In a deadline there is one fiber. -/
theorem Fibers.deadline_unique (h : Fibers .deadline s) {g : ℕ} (hf : s.phase f ≠ .done)
    (hg : s.phase g ≠ .done) : g = f := by
  have hone := (h.deadline rfl).1
  have hf := h.spawned f hf
  have hg := h.spawned g hg
  omega

theorem Fibers.goto (h : Fibers k s) (hf : s.phase f ≠ .done)
    (hp : p = .checking ∨ p = .expired → k = .deadline) : Fibers k (s.goto f p) := by
  refine ⟨?_, h.unique, h.past, h.rearm, h.rearmOnce, h.deadline, ?_⟩
  · intro g hg
    by_cases hgf : g = f
    · exact hgf ▸ h.spawned f hf
    · rw [goto_of_ne p hgf] at hg
      exact h.spawned g hg
  · intro g hg
    by_cases hgf : g = f
    · rw [hgf, goto_at] at hg
      exact hp hg
    · rw [goto_of_ne p hgf] at hg
      exact h.checking g hg

theorem Fibers.target (h : Fibers k s) (x : Option ℕ) : Fibers k { s with target := x } :=
  ⟨h.spawned, h.unique, h.past, h.rearm, h.rearmOnce, h.deadline, h.checking⟩

/-- A fiber goes on without a change of the handle. -/
theorem Wakes.goto (h : Wakes s)
    (hpub : p.published = true → ¬ s.Dead f → s.target = some f)
    (howed : p.parking = true → s.Dead f → (s.phase f).parking = true) : Wakes (s.goto f p) := by
  constructor
  case published =>
    intro g hg hlive
    by_cases hgf : g = f
    · rw [hgf, goto_at] at hg
      rw [hgf] at hlive ⊢
      exact hpub hg hlive
    · rw [goto_of_ne p hgf] at hg
      exact h.published g hg hlive
  case owed =>
    intro g hg hdead
    by_cases hgf : g = f
    · rw [hgf, goto_at] at hg
      rw [hgf] at hdead ⊢
      exact h.owed f (howed hg hdead) hdead
    · rw [goto_of_ne p hgf] at hg
      exact h.owed g hg hdead

/-- A fiber leaves its park, or never had one. -/
theorem Wakes.leave (h : Wakes s) (hp : p.published = false) : Wakes (s.goto f p) := by
  refine h.goto (fun hx => absurd (hp.symm.trans hx) nofun) fun hx => ?_
  exact absurd (hp.symm.trans (Phase.published_of_parking hx)) nofun

/-- The live fiber clears the handle and is on its way to a send. -/
theorem WakeInv.clear (hi : WakeInv k s) (hf : s.phase f ≠ .done) (hlive : ¬ s.Dead f) :
    Wakes (State.goto { s with target := none } f .sending) := by
  constructor
  case published =>
    intro g hg hgl
    by_cases hgf : g = f
    · rw [hgf, goto_at] at hg
      cases hg
    · rw [goto_of_ne _ hgf] at hg
      exact absurd (hi.fibers.live_unique hf (Phase.ne_done hg) hlive hgl) hgf
  case owed =>
    intro g hg hdead
    by_cases hgf : g = f
    · rw [hgf, goto_at] at hg
      cases hg
    · rw [goto_of_ne _ hgf] at hg
      exact hi.wakes.owed g hg hdead

/-! ## The calls -/

/-- The fibers that a locked section leaves parked are in its hand or in that of a call
before it. -/
theorem Wakes.taken (h : Wakes s) (hc : s.calls c = .idle) (rearm : Option ℕ) {g : ℕ}
    (hg : (s.phase g).parking = true) :
    ∃ d r, update s.calls c (.cancelling s.target rearm) d = .cancelling (some g) r := by
  by_cases hdead : s.Dead g
  · obtain ⟨d, r, hd⟩ := h.owed g hg hdead
    have hdc : d ≠ c := by
      rintro rfl
      exact absurd (hc.symm.trans hd) nofun
    exact ⟨d, r, by rw [update_of_ne hdc, hd]⟩
  · have htarget := h.published g (Phase.published_of_parking hg) hdead
    exact ⟨c, rearm, by rw [update_self, htarget]⟩

theorem WakeInv.stop (hi : WakeInv k s) (hc : s.calls c = .idle) : WakeInv k (s.stop k c) := by
  have h := hi.fibers
  unfold State.stop
  split
  case isTrue => exact hi
  case isFalse =>
    have hgen : s.gen ≤ if k = .deadline then s.gen else s.gen + 1 := by split <;> omega
    have hcalls : ∀ d, (update s.calls c (.cancelling s.target none) d).rearms =
        (s.calls d).rearms := by
      intro d
      by_cases hd : d = c
      · rw [hd, update_self, hc]
        rfl
      · rw [update_of_ne hd]
    constructor
    case fibers =>
      constructor
      case spawned => exact h.spawned
      case unique => exact h.unique
      case past => exact fun f hf => Nat.le_trans (h.past f hf) hgen
      case rearm =>
        intro d gen hd
        obtain ⟨hle, hne⟩ := h.rearm d gen ((hcalls d).symm.trans hd)
        exact ⟨Nat.le_trans hle hgen, hne⟩
      case rearmOnce =>
        intro d d' gen hd hd'
        exact h.rearmOnce d d' gen ((hcalls d).symm.trans hd) ((hcalls d').symm.trans hd')
      case deadline =>
        intro hk
        obtain ⟨hone, harm, hnone⟩ := h.deadline hk
        refine ⟨hone, ?_, fun d => (hcalls d).trans (hnone d)⟩
        show (if k = .deadline then s.gen else s.gen + 1) = _
        rw [if_pos hk]
        exact harm
      case checking => exact h.checking
    case wakes =>
      refine ⟨fun f _ hlive => absurd (.inl rfl) hlive, fun f hf _ => ?_⟩
      exact hi.wakes.taken hc none hf

theorem WakeInv.reset {positive : Bool} (hi : WakeInv k s) (hc : s.calls c = .idle)
    (hk : k ≠ .deadline) : WakeInv k (s.reset c positive) := by
  have h := hi.fibers
  have hcalls : ∀ d gen, (update s.calls c
      (.cancelling s.target (some (s.gen + 1))) d).rearms = some gen →
      (d = c ∧ gen = s.gen + 1) ∨ (d ≠ c ∧ (s.calls d).rearms = some gen) := by
    intro d gen hd
    by_cases hdc : d = c
    · rw [hdc, update_self] at hd
      cases hd
      exact .inl ⟨hdc, rfl⟩
    · rw [update_of_ne hdc] at hd
      exact .inr ⟨hdc, hd⟩
  constructor
  case fibers =>
    constructor
    case spawned => exact h.spawned
    case unique => exact h.unique
    case past => exact fun f hf => Nat.le_succ_of_le (h.past f hf)
    case rearm =>
      intro d gen hd
      rcases hcalls d gen hd with ⟨-, rfl⟩ | ⟨-, hd⟩
      · refine ⟨Nat.le_refl _, fun f hf he => ?_⟩
        have hle := h.past f hf
        have he : s.arming f = s.gen + 1 := he
        omega
      · obtain ⟨hle, hne⟩ := h.rearm d gen hd
        exact ⟨Nat.le_succ_of_le hle, hne⟩
    case rearmOnce =>
      intro d d' gen hd hd'
      rcases hcalls d gen hd with ⟨hdc, hgen⟩ | ⟨-, hd⟩
      · rcases hcalls d' gen hd' with ⟨hdc', -⟩ | ⟨-, hd'⟩
        · rw [hdc, hdc']
        · have hle := (h.rearm d' gen hd').1
          omega
      · rcases hcalls d' gen hd' with ⟨-, hgen⟩ | ⟨-, hd'⟩
        · have hle := (h.rearm d gen hd).1
          omega
        · exact h.rearmOnce d d' gen hd hd'
    case deadline => exact fun hx => absurd hx hk
    case checking => exact h.checking
  case wakes =>
    refine ⟨fun f hf hlive => ?_, fun f hf _ => hi.wakes.taken hc _ hf⟩
    -- the new generation has no fiber
    have hle := h.past f (h.spawned f (Phase.ne_done hf))
    refine absurd (.inr ?_) hlive
    show s.gen + 1 ≠ s.arming f
    omega

/-- The claim of a linked parker. -/
theorem WakeInv.cancelWaitFd (hi : WakeInv k s) : WakeInv k (s.cancelWaitFd f) := by
  have hwoken : (s.phase f).published = true → WakeInv k (s.goto f .woken) := by
    intro hf
    refine ⟨hi.fibers.goto (Phase.ne_done hf) (by simp), hi.wakes.goto ?_ (by intros; contradiction)⟩
    exact fun _ hlive => hi.wakes.published f hf hlive
  unfold State.cancelWaitFd
  split
  · next hf => exact hwoken (by rw [hf]; rfl)
  · next hf => exact hwoken (by rw [hf]; rfl)
  · exact hi

/-- Outside the gap the fiber is not on its way to its deadline afterwards. -/
theorem cancelWaitFd_not_parking (hf : s.phase f ≠ .entering) :
    ((s.cancelWaitFd f).phase f).parking = false := by
  unfold State.cancelWaitFd
  split
  · rw [goto_at]
    rfl
  · rw [goto_at]
    rfl
  · next h1 h2 =>
    cases hp : s.phase f with
    | entering => exact absurd hp hf
    | linked => exact absurd hp h1
    | parked => exact absurd hp h2
    | start | checking | woken | sending | expired | finishing | done => rfl

theorem cancelWaitFd_calls : (s.cancelWaitFd f).calls = s.calls := by
  unfold State.cancelWaitFd
  split <;> rfl

/-- A call is past its `cancel_wait_fd`. -/
theorem WakeInv.called {fiber rearm : Option ℕ} {x : Call} (hi : WakeInv k s)
    (hc : s.calls c = .cancelling fiber rearm) (hx : x.rearms = rearm)
    (hfiber : ∀ f, fiber = some f → (s.phase f).parking = false) : WakeInv k (s.call c x) := by
  have h := hi.fibers
  have hcalls : ∀ d, (update s.calls c x d).rearms = (s.calls d).rearms := by
    intro d
    by_cases hd : d = c
    · rw [hd, update_self, hc]
      exact hx
    · rw [update_of_ne hd]
  constructor
  case fibers =>
    refine ⟨h.spawned, h.unique, h.past, ?_, ?_, ?_, h.checking⟩
    · exact fun d gen hd => h.rearm d gen ((hcalls d).symm.trans hd)
    · exact fun d d' gen hd hd' =>
        h.rearmOnce d d' gen ((hcalls d).symm.trans hd) ((hcalls d').symm.trans hd')
    · intro hk
      obtain ⟨hone, harm, hnone⟩ := h.deadline hk
      exact ⟨hone, harm, fun d => (hcalls d).trans (hnone d)⟩
  case wakes =>
    refine ⟨hi.wakes.published, fun f hf hdead => ?_⟩
    obtain ⟨d, r, hd⟩ := hi.wakes.owed f hf hdead
    have hdc : d ≠ c := by
      rintro rfl
      cases hc.symm.trans hd
      exact absurd ((hfiber f rfl).symm.trans hf) nofun
    exact ⟨d, r, by
      show update s.calls c x d = _
      rw [update_of_ne hdc, hd]⟩

theorem WakeInv.cancel (hi : WakeInv k s) (hok : cancelsInGap s (.cancel c) = false)
    (hs : s.cancel c = some t) : WakeInv k t := by
  have key : ∀ fiber rearm x, s.calls c = .cancelling fiber rearm → x.rearms = rearm →
      WakeInv k ((s.cancelTaken fiber).call c x) := by
    intro fiber rearm x hc hx
    cases fiber with
    | none => exact hi.called hc hx (by intros; contradiction)
    | some f =>
      simp only [cancelsInGap, hc, beq_eq_false_iff_ne] at hok
      refine hi.cancelWaitFd.called (by rw [cancelWaitFd_calls]; exact hc) hx ?_
      rintro _ ⟨⟩
      exact cancelWaitFd_not_parking hok
  unfold State.cancel at hs
  split at hs <;> cases hs
  · next hc => exact key _ _ _ hc rfl
  · next hc => exact key _ _ _ hc rfl

theorem WakeInv.spawn {gen : ℕ} (hi : WakeInv k s) (hc : s.calls c = .spawning gen) :
    WakeInv k ((s.spawn gen).call c .idle) := by
  have h := hi.fibers
  have hrearm : (s.calls c).rearms = some gen := by rw [hc]; rfl
  have hk : k ≠ .deadline := fun hk => absurd (((h.deadline hk).2.2 c).symm.trans hrearm) nofun
  have hphase : ∀ g, g ≠ s.count → ((s.spawn gen).call c .idle).phase g = s.phase g :=
    fun g hg => update_of_ne hg _ _
  have hnew : ((s.spawn gen).call c .idle).phase s.count = .start := update_self _ _ _
  have harm : ∀ g, g ≠ s.count → ((s.spawn gen).call c .idle).arming g = s.arming g :=
    fun g hg => update_of_ne hg _ _
  have hnewArm : ((s.spawn gen).call c .idle).arming s.count = gen := update_self _ _ _
  have hcalls : ∀ d x, (((s.spawn gen).call c .idle).calls d).rearms = some x →
      d ≠ c ∧ (s.calls d).rearms = some x := by
    intro d x hd
    have hd : (update s.calls c .idle d).rearms = some x := hd
    by_cases hdc : d = c
    · rw [hdc, update_self] at hd
      cases hd
    · rw [update_of_ne hdc] at hd
      exact ⟨hdc, hd⟩
  have hcase : ∀ g, g < s.count + 1 → g = s.count ∨ g < s.count := fun g hg => by omega
  constructor
  case fibers =>
    constructor
    case spawned =>
      intro g hg
      show g < s.count + 1
      by_cases hgc : g = s.count
      · omega
      · rw [hphase g hgc] at hg
        exact Nat.lt_succ_of_lt (h.spawned g hg)
    case unique =>
      intro g g' hg hg' heq
      rcases hcase g hg with rfl | hg
      · rcases hcase g' hg' with rfl | hg'
        · rfl
        · rw [hnewArm, harm g' (by omega)] at heq
          exact absurd heq.symm ((h.rearm c gen hrearm).2 g' hg')
      · rw [harm g (by omega)] at heq
        rcases hcase g' hg' with rfl | hg'
        · rw [hnewArm] at heq
          exact absurd heq ((h.rearm c gen hrearm).2 g hg)
        · rw [harm g' (by omega)] at heq
          exact h.unique g g' hg hg' heq
    case past =>
      intro g hg
      rcases hcase g hg with rfl | hg
      · rw [hnewArm]
        exact (h.rearm c gen hrearm).1
      · rw [harm g (by omega)]
        exact h.past g hg
    case rearm =>
      intro d x hd
      obtain ⟨hdc, hd⟩ := hcalls d x hd
      refine ⟨(h.rearm d x hd).1, fun g hg he => ?_⟩
      rcases hcase g hg with rfl | hg
      · rw [hnewArm] at he
        exact hdc (h.rearmOnce d c x hd (he ▸ hrearm))
      · rw [harm g (by omega)] at he
        exact (h.rearm d x hd).2 g hg he
    case rearmOnce =>
      intro d d' x hd hd'
      exact h.rearmOnce d d' x (hcalls d x hd).2 (hcalls d' x hd').2
    case deadline => exact fun hx => absurd hx hk
    case checking =>
      intro g hg
      by_cases hgc : g = s.count
      · rw [hgc, hnew] at hg
        rcases hg with hg | hg <;> cases hg
      · rw [hphase g hgc] at hg
        exact h.checking g hg
  case wakes =>
    have hdead : ∀ g, g ≠ s.count → (((s.spawn gen).call c .idle).Dead g ↔ s.Dead g) := by
      intro g hg
      unfold State.Dead
      rw [harm g hg]
      rfl
    constructor
    case published =>
      intro g hg hlive
      by_cases hgc : g = s.count
      · rw [hgc, hnew] at hg
        cases hg
      · rw [hphase g hgc] at hg
        exact hi.wakes.published g hg fun hx => hlive ((hdead g hgc).mpr hx)
    case owed =>
      intro g hg hd
      by_cases hgc : g = s.count
      · rw [hgc, hnew] at hg
        cases hg
      · rw [hphase g hgc] at hg
        obtain ⟨d, r, hdr⟩ := hi.wakes.owed g hg ((hdead g hgc).mp hd)
        have hdc : d ≠ c := by
          rintro rfl
          exact absurd (hc.symm.trans hdr) nofun
        exact ⟨d, r, by
          show update s.calls c .idle d = _
          rw [update_of_ne hdc, hdr]⟩

/-! ## The fibers -/

theorem WakeInv.publish (hi : WakeInv k s) (hf : s.phase f = .start) :
    WakeInv k (s.publish k f) := by
  have hdone : s.phase f ≠ .done := by rw [hf]; nofun
  unfold State.publish
  split
  case isTrue hk =>
    subst hk
    refine ⟨(hi.fibers.target (some f)).goto hdone fun _ => rfl, ?_⟩
    -- the fiber is the only one
    constructor
    case published =>
      intro g hg _
      by_cases hgf : g = f
      · rw [hgf]
        rfl
      · rw [goto_of_ne _ hgf] at hg
        exact absurd (hi.fibers.deadline_unique hdone (Phase.ne_done hg)) hgf
    case owed =>
      intro g hg hdead
      by_cases hgf : g = f
      · rw [hgf, goto_at] at hg
        cases hg
      · rw [goto_of_ne _ hgf] at hg
        exact hi.wakes.owed g hg hdead
  case isFalse hk =>
    split
    case isTrue => exact ⟨hi.fibers.goto hdone (by intros; contradiction), hi.wakes.leave rfl⟩
    case isFalse hlive =>
      refine ⟨(hi.fibers.target (some f)).goto hdone ?_, ?_⟩
      · split <;> nofun
      · constructor
        case published =>
          intro g hg hgl
          by_cases hgf : g = f
          · rw [hgf]
            rfl
          · rw [goto_of_ne _ hgf] at hg
            exact absurd (hi.fibers.live_unique hdone (Phase.ne_done hg) hlive hgl) hgf
        case owed =>
          intro g hg hdead
          by_cases hgf : g = f
          · exact absurd (hgf ▸ hdead) hlive
          · rw [goto_of_ne _ hgf] at hg
            exact hi.wakes.owed g hg hdead

theorem WakeInv.resume (hi : WakeInv k s) (hf : s.phase f = .woken) :
    WakeInv k (s.resume k f) := by
  have hdone : s.phase f ≠ .done := by rw [hf]; nofun
  have hend : WakeInv k (s.goto f .done) := ⟨hi.fibers.goto hdone nofun, hi.wakes.leave rfl⟩
  have h := hi.fibers
  cases k with
  | timer =>
    simp only [State.resume]
    split
    case isTrue => exact hend
    case isFalse hlive =>
      have hw := hi.clear hdone fun hx => hlive (.inl hx)
      refine ⟨(Fibers.goto ?_ hdone (by intros; contradiction)), hw.published, hw.owed⟩
      exact ⟨h.spawned, h.unique, h.past, h.rearm, h.rearmOnce, h.deadline, h.checking⟩
  | ticker =>
    simp only [State.resume]
    split
    case isTrue => exact hend
    case isFalse hlive => exact ⟨(h.target none).goto hdone (by intros; contradiction), hi.clear hdone hlive⟩
  | deadline =>
    refine ⟨h.goto hdone fun _ => rfl, hi.wakes.goto ?_ (by intros; contradiction)⟩
    exact fun _ hlive => hi.wakes.published f (by rw [hf]; rfl) hlive

theorem WakeInv.check {expired : Bool} (hi : WakeInv k s) (hf : s.phase f = .checking) :
    WakeInv k (s.check f expired) := by
  have hdone : s.phase f ≠ .done := by rw [hf]; nofun
  have hk := hi.fibers.checking f (.inl hf)
  unfold State.check
  split
  case isTrue => exact ⟨hi.fibers.goto hdone (by intros; contradiction), hi.wakes.leave rfl⟩
  case isFalse hstop =>
    split
    case isTrue => exact ⟨hi.fibers.goto hdone fun _ => hk, hi.wakes.leave rfl⟩
    case isFalse =>
      refine ⟨hi.fibers.goto hdone (by intros; contradiction), hi.wakes.goto ?_ ?_⟩
      · exact fun _ hlive => hi.wakes.published f (by rw [hf]; rfl) hlive
      · -- the generation of a deadline never changes
        intro _ hdead
        obtain ⟨hone, harm, -⟩ := hi.fibers.deadline hk
        have hlt := hi.fibers.spawned f hdone
        have hzero : f = 0 := by omega
        rcases hdead with hdead | hdead
        · exact absurd hdead hstop
        · exact absurd (hzero ▸ harm) hdead

theorem WakeInv.expire (hi : WakeInv k s) (hf : s.phase f = .expired) :
    WakeInv k (s.expire f) := by
  have hdone : s.phase f ≠ .done := by rw [hf]; nofun
  have h := hi.fibers
  have hk := h.checking f (.inr hf)
  unfold State.expire
  split
  case isTrue => exact ⟨h.goto hdone (by intros; contradiction), hi.wakes.leave rfl⟩
  case isFalse =>
    subst hk
    refine ⟨Fibers.goto ?_ hdone (by intros; contradiction), ?_⟩
    · exact ⟨h.spawned, h.unique, h.past, h.rearm, h.rearmOnce, h.deadline, h.checking⟩
    · refine ⟨fun g _ hlive => absurd (.inl rfl) hlive, fun g hg _ => ?_⟩
      by_cases hgf : g = f
      · rw [hgf, goto_at] at hg
        cases hg
      · rw [goto_of_ne _ hgf] at hg
        have hne := Phase.ne_done (Phase.published_of_parking hg)
        exact absurd (h.deadline_unique hdone hne) hgf

theorem wake_step {a : Action} (hi : WakeInv k s) (hok : cancelsInGap s a = false)
    (hs : step k s a = some t) : WakeInv k t := by
  cases a with
  | cancel c => exact hi.cancel hok hs
  | stop c =>
    simp only [step] at hs
    split at hs <;> cases hs
    next hc => exact hi.stop hc
  | reset c positive =>
    simp only [step] at hs
    split at hs <;> cases hs
    next hc => exact hi.reset hc.1 hc.2.1
  | spawn c =>
    simp only [step] at hs
    split at hs <;> cases hs
    next hc => exact hi.spawn hc
  | publish f =>
    simp only [step] at hs
    split at hs <;> cases hs
    next hf => exact hi.publish hf
  | link f =>
    simp only [step] at hs
    split at hs <;> cases hs
    next hf =>
    refine ⟨hi.fibers.goto (by rw [hf]; nofun) nofun, hi.wakes.goto ?_ ?_⟩
    · exact fun _ hlive => hi.wakes.published f (by rw [hf]; rfl) hlive
    · exact fun _ _ => by rw [hf]; rfl
  | commit f =>
    simp only [step] at hs
    split at hs <;> cases hs
    next hf =>
    refine ⟨hi.fibers.goto (by rw [hf]; nofun) nofun, hi.wakes.goto ?_ ?_⟩
    · exact fun _ hlive => hi.wakes.published f (by rw [hf]; rfl) hlive
    · exact fun _ _ => by rw [hf]; rfl
  | timeout f =>
    simp only [step] at hs
    split at hs <;> cases hs
    next hf =>
    have hpub : (s.phase f).published = true := by
      rcases hf with hf | hf <;> rw [hf] <;> rfl
    refine ⟨hi.fibers.goto (Phase.ne_done hpub) (by intros; contradiction), hi.wakes.goto ?_ (by intros; contradiction)⟩
    exact fun _ hlive => hi.wakes.published f hpub hlive
  | resume f =>
    simp only [step] at hs
    split at hs <;> cases hs
    next hf => exact hi.resume hf
  | check f expired =>
    simp only [step] at hs
    split at hs <;> cases hs
    next hf => exact hi.check hf
  | send f =>
    simp only [step] at hs
    split at hs <;> cases hs
    next hf =>
    have hw : Wakes (s.goto f (if k = .ticker then .start else .done)) := by
      refine hi.wakes.leave ?_
      split <;> rfl
    have hfib : Fibers k (s.goto f (if k = .ticker then .start else .done)) := by
      refine hi.fibers.goto (by rw [hf]; nofun) ?_
      split <;> nofun
    exact ⟨⟨hfib.spawned, hfib.unique, hfib.past, hfib.rearm, hfib.rearmOnce, hfib.deadline,
      hfib.checking⟩, hw.published, hw.owed⟩
  | expire f =>
    simp only [step] at hs
    split at hs <;> cases hs
    next hf => exact hi.expire hf
  | finish f =>
    simp only [step] at hs
    split at hs <;> cases hs
    next hf => exact ⟨hi.fibers.goto (by rw [hf]; nofun) nofun, hi.wakes.leave rfl⟩

end Steps

theorem wake_fresh (k : Kind) (positive : Bool) : WakeInv k (fresh positive) := by
  have hphase : ∀ f, (fresh positive).phase f = .start ∨ (fresh positive).phase f = .done := by
    intro f
    simp only [fresh]
    split
    · exact .inl rfl
    · exact .inr rfl
  constructor
  case fibers =>
    constructor
    case spawned =>
      intro f hf
      simp only [fresh] at hf ⊢
      split at hf
      · next h => exact h ▸ Nat.zero_lt_one
      · exact absurd rfl hf
    case unique =>
      intro f g hf hg _
      simp only [fresh] at hf hg
      omega
    case past => exact fun _ _ => Nat.le_refl _
    case rearm => exact (by intros; contradiction)
    case rearmOnce => exact (by intros; contradiction)
    case deadline => exact fun _ => ⟨rfl, rfl, fun _ => rfl⟩
    case checking =>
      intro f hf
      rcases hphase f with h | h <;> rw [h] at hf <;> rcases hf with hf | hf <;> cases hf
  case wakes =>
    constructor
    case published =>
      intro f hf
      rcases hphase f with h | h <;> rw [h] at hf <;> cases hf
    case owed =>
      intro f hf
      rcases hphase f with h | h <;> rw [h] at hf <;> cases hf

/-- **No fiber is left parked for a dead generation**, in every run in which no
`cancel_wait_fd` meets a fiber between its check and the linking of its parker. -/
theorem reachable_not_stranded {k : Kind} {s : State} (hr : Reachable (wakeSystem k) s) (f : ℕ) :
    ¬ Stranded s f := by
  have hi : WakeInv k s := by
    refine Reachable.invariant ?_ ?_ hr
    · rintro _ ⟨positive, -, rfl⟩
      exact wake_fresh k positive
    · intro u a t _ hi hs
      obtain ⟨hok, hs⟩ := System.restrict_step.mp hs
      exact wake_step hi hok hs
  rintro ⟨hf, hdead, hnone⟩
  obtain ⟨c, r, hc⟩ := hi.wakes.owed f (by rw [hf]; rfl) hdead
  exact hnone c r hc

/-- A timer is reset while its fiber is parked. -/
def resetRun : List Action :=
  [.publish 0, .link 0, .commit 0, .reset 0 true, .cancel 0, .spawn 0, .publish 1, .link 1, .commit 1]

theorem reachable_not_stranded_reset :
    ∃ s, (wakeSystem .timer).run (fresh true) resetRun = some s ∧ s.phase 0 = .woken ∧
      s.phase 1 = .parked ∧ ¬ Stranded s 0 :=
  ⟨_, rfl, rfl, rfl,
    reachable_not_stranded (reachable_of_run (wakeSystem .timer) resetRun ⟨true, (by intros; contradiction), rfl⟩ rfl) 0⟩

/-- A `Stop` or a `_cancel` whose `cancel_wait_fd` comes before the fiber has a parker. -/
theorem stop_in_gap :
    (∃ s, (system .timer).run (fresh true)
        [.publish 0, .stop 0, .cancel 0, .link 0, .commit 0] = some s ∧ Stranded s 0) ∧
    (∃ s, (system .ticker).run (fresh true)
        [.publish 0, .stop 0, .cancel 0, .link 0, .commit 0] = some s ∧ Stranded s 0) ∧
    ∃ s, (system .deadline).run (fresh true)
        [.publish 0, .check 0 false, .stop 0, .cancel 0, .link 0, .commit 0] = some s ∧
      Stranded s 0 := by
  refine ⟨⟨_, rfl, rfl, .inl rfl, ?_⟩, ⟨_, rfl, rfl, .inl rfl, ?_⟩, ⟨_, rfl, rfl, .inl rfl, ?_⟩⟩
  all_goals
    intro c rearm h
    cases c <;> cases h

end Stackweave.Time
