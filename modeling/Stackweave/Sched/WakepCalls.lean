import Stackweave.Sched.Wakep

/-!
# The calls of WAKEP, and what they lose

A `wakep_one` that returned has kicked a hub, or every hub that could take the entry was seen
with its flag clear, or the hint was down because a hub has yet to count itself. Each of them
looks at the queue again before it sleeps. The kick of a producer is lost where it hits the
producer itself.
-/

namespace Stackweave.Wakep

open Transition Tally Function

section CallStep

variable {n m : ℕ} {p : Place} {s t : State} {c j : ℕ}

/-- What a step of the call of thread `c` leaves alone. `marks` is whether it tells of the
entries that `c` pushed there. -/
structure CallFrame (c : ℕ) (p : Place) (marks : Prop) (s t : State) : Prop where
  hub : t.hub = s.hub
  flag : ∀ j, t.idleParked j = true → s.idleParked j = true
  cleared : ∀ j, s.idleParked j = true → t.idleParked j = true ∨ t.Kicked j
  kicked : ∀ j, s.Kicked j → t.Kicked j
  call : ∀ k, k ≠ c → t.call k = s.call k
  queue : ∀ e ∈ t.queue p, ∃ e₀ ∈ s.queue p, e₀.producer = e.producer ∧
    (e.told = true → e₀.told = true ∨ marks ∧ e.producer = c)

theorem CallFrame.aware {marks : Prop} (hf : CallFrame c p marks s t) (ha : s.Aware p j) :
    t.Aware p j := by
  refine ha.imp (fun hheeds => ?_) (hf.kicked j)
  rwa [hf.hub]

theorem CallFrame.nonempty {marks : Prop} (hf : CallFrame c p marks s t) (hq : t.queue p ≠ []) :
    s.queue p ≠ [] := by
  obtain ⟨e, he⟩ := List.exists_mem_of_ne_nil _ hq
  obtain ⟨e₀, he₀, -⟩ := hf.queue e he
  exact List.ne_nil_of_mem he₀

theorem CallFrame.inv {marks : Prop} (hf : CallFrame c p marks s t) (hi : Inv n m p s)
    (hhint : t.nidle = t.owed n m)
    (hcalls : c < n → t.call c ≠ .idle → s.hub c = .out ∨ s.hub c = .woke)
    (hpassed : ∀ i, t.call c = .reads true i ∨ t.call c = .cas true i → p.isPinned = false →
      (∃ e ∈ s.queue p, e.producer = c) → ∀ j < i, p.takes n j → s.Aware p j)
    (haims : ∀ one i, t.call c = .cas one i → i < n)
    (hhit : ∀ i, (t.call c).kicks i → i < n ∧ (p = .deque c → s.queue p ≠ [] → i ≠ c))
    (htold : marks → (∃ e ∈ s.queue p, e.producer = c) → (∃ h, p.takes n h) →
      ∃ h, p.takes n h ∧ t.Aware p h) : Inv n m p t := by
  constructor
  case flagged =>
    intro j hflag
    rw [hf.hub]
    exact hi.flagged j (hf.flag j hflag)
  case kicked =>
    intro j hparks
    rw [hf.hub] at hparks
    rcases hi.kicked j hparks with hflag | hk
    · exact hf.cleared j hflag
    · exact .inr (hf.kicked j hk)
  case hint => exact hhint
  case calls =>
    intro k hk hbusy
    rw [hf.hub]
    by_cases hkc : k = c
    · subst hkc
      exact hcalls hk hbusy
    · rw [hf.call k hkc] at hbusy
      exact hi.calls k hk hbusy
  case mine =>
    intro o hp e he
    obtain ⟨e₀, he₀, hproducer, -⟩ := hf.queue e he
    exact hproducer ▸ hi.mine o hp e₀ he₀
  case own =>
    intro o hp hq hflag
    rw [hf.hub]
    exact hi.own o hp (hf.nonempty hq) (hf.flag o hflag)
  case passed =>
    rintro k i hc hp ⟨e, he, hek⟩ j hji hj
    obtain ⟨e₀, he₀, hproducer, -⟩ := hf.queue e he
    have hmine : ∃ e ∈ s.queue p, e.producer = k := ⟨e₀, he₀, hproducer.trans hek⟩
    by_cases hkc : k = c
    · subst hkc
      exact hf.aware (hpassed i hc hp hmine j hji hj)
    · rw [hf.call k hkc] at hc
      exact hf.aware (hi.passed k i hc hp hmine j hji hj)
  case aims =>
    intro k one i hk
    by_cases hkc : k = c
    · subst hkc
      exact haims one i hk
    · rw [hf.call k hkc] at hk
      exact hi.aims k one i hk
  case hit =>
    intro k i hk
    by_cases hkc : k = c
    · subst hkc
      exact ⟨(hhit i hk).1, fun hp hq => (hhit i hk).2 hp (hf.nonempty hq)⟩
    · rw [hf.call k hkc] at hk
      exact ⟨(hi.hit k i hk).1, fun hp hq => (hi.hit k i hk).2 hp (hf.nonempty hq)⟩
  case told =>
    rintro ⟨e, he, hetold⟩ htakes
    obtain ⟨e₀, he₀, hproducer, hwas⟩ := hf.queue e he
    rcases hwas hetold with hwas | ⟨hmarks, hec⟩
    · obtain ⟨j, hj, haware⟩ := hi.told ⟨e₀, he₀, hwas⟩ htakes
      exact ⟨j, hj, hf.aware haware⟩
    · exact htold hmarks ⟨e₀, he₀, hproducer.trans hec⟩ htakes

theorem setCall_frame {x : Call} (hx : ∀ j, (s.call c).kicks j → x.kicks j) :
    CallFrame c p False s (s.setCall c x) where
  hub := rfl
  flag _ h := h
  cleared _ h := .inl h
  kicked j hk := by
    refine hk.imp id fun ⟨k, hkj⟩ => ?_
    by_cases hkc : k = c
    · subst hkc
      exact ⟨k, by simpa [State.setCall] using hx j hkj⟩
    · exact ⟨k, by simpa [State.setCall, update_of_ne hkc] using hkj⟩
  call k hkc := update_of_ne hkc ..
  queue e he := ⟨e, he, rfl, .inl⟩

variable {one : Bool} {i : ℕ}

/-- The call returns, and what it was about to signal is signalled. -/
theorem complete_frame {sig : ℕ → Bool}
    (hsig : ∀ j, s.signalled j = true → sig j = true)
    (hkicks : ∀ j, (s.call c).kicks j → sig j = true) :
    CallFrame c p (State.covers one i p = true) s
      ({ s with signalled := sig }.complete c one i) where
  hub := rfl
  flag _ h := h
  cleared _ h := .inl h
  kicked j hk := by
    rcases hk with hk | ⟨k, hkj⟩
    · exact .inl (hsig j hk)
    · by_cases hkc : k = c
      · subst hkc
        exact .inl (hkicks j hkj)
      · exact .inr ⟨k, by simpa [State.complete, update_of_ne hkc] using hkj⟩
  call k hkc := update_of_ne hkc ..
  queue e he := by
    simp only [State.complete] at he
    split at he
    · next hcovers =>
      obtain ⟨e₀, he₀, rfl⟩ := List.mem_map.mp he
      refine ⟨e₀, he₀, ?_, ?_⟩
      · split <;> rfl
      · split
        · next hc => exact fun _ => .inr ⟨hcovers, hc⟩
        · exact .inl
    · exact ⟨e, he, rfl, .inl⟩

theorem owed_setCall {x : Call} (hc : c < n + m) :
    (s.setCall c x).owed n m = s.owed n m + (x.weight - (s.call c).weight) := by
  have hsum := sum_range_update (f := fun k => (s.call k).weight)
    (g := fun k => ((s.setCall c x).call k).weight) hc fun k hk => by
      simp [State.setCall, update_of_ne hk]
  simp only [State.setCall, update_self] at hsum
  simp only [State.owed, State.setCall]
  omega

theorem aware_of_not_flagged (hi : Inv n m p s) (hflag : s.idleParked j = false) :
    s.Aware p j := by
  cases hpc : s.hub j with
  | counts | backs => exact .inl (by rw [hpc]; trivial)
  | scans | blocked =>
    refine .inr ((hi.kicked j (by rw [hpc]; trivial)).resolve_left ?_)
    rw [hflag]
    nofun
  | out | loads | stores | uncounts | woke | exits => exact .inl (by rw [hpc]; trivial)

/-- Where the hint is down to 0 with a flag set, a hub has set its flag and not counted yet. -/
theorem exists_counts (hi : Inv n m p s) (hhint : s.nidle ≤ 0) :
    (∀ h < n, s.idleParked h = false) ∨ ∃ h < n, s.hub h = .counts := by
  refine or_iff_not_imp_right.mpr fun hnone => ?_
  have hhubs : ∀ h ∈ Finset.range n, 0 ≤ (s.hub h).weight (s.idleParked h) := by
    intro h hh
    have hne : s.hub h ≠ .counts := fun hc => hnone ⟨h, Finset.mem_range.mp hh, hc⟩
    cases hpc : s.hub h <;> cases s.idleParked h <;> simp_all [Hub.weight]
  have hcalls : 0 ≤ ∑ k ∈ Finset.range (n + m), (s.call k).weight := by
    refine Finset.sum_nonneg fun k _ => ?_
    cases s.call k <;> simp [Call.weight]
  intro h hh
  have hle := Finset.single_le_sum hhubs (Finset.mem_range.mpr hh)
  have howed := hi.hint
  simp only [State.owed] at howed
  have hzero : (s.hub h).weight (s.idleParked h) ≤ 0 := by omega
  by_contra hflag
  have hflag := eq_true_of_ne_false hflag
  rw [hflag] at hzero
  have hne : s.hub h ≠ .counts := fun hc => hnone ⟨h, hh, hc⟩
  cases hpc : s.hub h <;> simp_all [Hub.weight]

/-- The producer of an entry on a deque is the owner. -/
theorem takes_of_ne (hi : Inv n m p s) (he : ∃ e ∈ s.queue p, e.producer = c)
    (hp : p.isPinned = false) {h : ℕ} (hh : h < n) (hne : p = .deque c → h ≠ c) :
    p.takes n h := by
  cases p with
  | runq => exact hh
  | pinned k => cases hp
  | deque o =>
    obtain ⟨e, he, rfl⟩ := he
    obtain ⟨rfl, -⟩ := hi.mine o rfl e he
    exact ⟨hh, hne rfl⟩

theorem takes_lt {h : ℕ} (ht : p.takes n h) : h < n := by
  cases p with
  | runq => exact ht
  | pinned k => exact ht.1
  | deque o => exact ht.1

theorem complete_inv (hi : Inv n m p s) (hc : c < n + m)
    {sig : ℕ → Bool} (hsig : ∀ j, s.signalled j = true → sig j = true)
    (hkicks : ∀ j, (s.call c).kicks j → sig j = true) (hw : (s.call c).weight = 0)
    (htold : State.covers one i p = true → (∃ e ∈ s.queue p, e.producer = c) →
      (∃ h, p.takes n h) →
      ∃ h, p.takes n h ∧ (s.Aware p h ∨ sig h = true)) :
    Inv n m p ({ s with signalled := sig }.complete c one i) := by
  have hf : CallFrame c p (State.covers one i p = true) s
    ({ s with signalled := sig }.complete c one i) := complete_frame hsig hkicks
  have hidle : ({ s with signalled := sig }.complete c one i).call c = .idle :=
    update_self ..
  refine hf.inv hi ?_ (fun _ hbusy => absurd hidle hbusy) ?_ ?_ ?_ ?_
  · have howed := owed_setCall (s := s) (x := .idle) hc
    have hhint := hi.hint
    rw [hw] at howed
    change s.nidle = (s.setCall c .idle).owed n m
    simp [howed, hhint, Call.weight]
  · rw [hidle]
    rintro i (hc | hc) <;> cases hc
  · rw [hidle]
    intros; contradiction
  · rw [hidle]
    exact fun i hk => hk.elim
  · intro hcovers he htakes
    obtain ⟨h, hh, haware | hsigned⟩ := htold hcovers he htakes
    · exact ⟨h, hh, hf.aware haware⟩
    · exact ⟨h, hh, .inr (.inl hsigned)⟩

theorem setCall_inv (hi : Inv n m p s) (hc : c < n + m) {x : Call}
    (hcalls : c < n → s.hub c = .out ∨ s.hub c = .woke)
    (hkicks : ∀ j, (s.call c).kicks j → x.kicks j) (hw : x.weight = (s.call c).weight)
    (hpassed : ∀ i, x = .reads true i ∨ x = .cas true i → p.isPinned = false →
      (∃ e ∈ s.queue p, e.producer = c) → ∀ j < i, p.takes n j → s.Aware p j)
    (haims : ∀ one i, x = .cas one i → i < n)
    (hhit : ∀ i, x.kicks i → i < n ∧ (p = .deque c → s.queue p ≠ [] → i ≠ c)) :
    Inv n m p (s.setCall c x) := by
  have hx : (s.setCall c x).call c = x := update_self ..
  refine (setCall_frame hkicks).inv hi ?_ (fun hlt _ => hcalls hlt) ?_ ?_ ?_ (fun hf => hf.elim)
  · have howed := owed_setCall (s := s) (x := x) hc
    have hhint := hi.hint
    change s.nidle = _
    omega
  · rw [hx]
    exact hpassed
  · rw [hx]
    exact haims
  · rw [hx]
    exact hhit

/-- The kick of hub `i` came too late, or its flag was not set. -/
theorem missed_inv (hi : Inv n m p s) (hc : c < n + m)
    (hcall : s.call c = .reads one i ∨ s.call c = .cas one i) (hflag : s.idleParked i = false) :
    Inv n m p (s.missed c one i) := by
  have hbusy : s.call c ≠ .idle := by rcases hcall with h | h <;> rw [h] <;> nofun
  have hkicks : ∀ j, ¬ (s.call c).kicks j := by
    intro j
    rcases hcall with h | h <;> rw [h] <;> exact id
  have hw : (s.call c).weight = 0 := by rcases hcall with h | h <;> rw [h] <;> rfl
  unfold State.missed
  cases one with
  | true =>
    refine setCall_inv hi hc (fun hlt => hi.calls c hlt hbusy) (fun j hk => absurd hk (hkicks j))
      hw.symm ?_ (by intros; contradiction) (fun j hk => hk.elim)
    intro i' hi' hp he j hj htakes
    obtain rfl : i + 1 = i' := by
      rcases hi' with h | h <;> cases h
      rfl
    rcases Nat.lt_succ_iff_lt_or_eq.mp hj with hlt | rfl
    · exact hi.passed c i hcall hp he j hlt htakes
    · exact aware_of_not_flagged hi hflag
  | false =>
    refine complete_inv hi hc (fun _ => id) (fun j hk => absurd hk (hkicks j)) hw ?_
    rintro hcovers - ⟨h, hh⟩
    have hpin : p = .pinned i := by simpa [State.covers] using hcovers
    exact ⟨h, hh, .inl (aware_of_not_flagged hi (hh.pinned hpin ▸ hflag))⟩

theorem owed_setFlag (hin : i < n) (hflag : s.idleParked i = true) :
    (s.setFlag i false).owed n m = s.owed n m - 1 := by
  have hsum := sum_range_update (f := fun j => (s.hub j).weight (s.idleParked j))
    (g := fun j => (s.hub j).weight ((s.setFlag i false).idleParked j)) hin fun j hj => by
      simp [State.setFlag, update_of_ne hj]
  have hi : (s.hub i).weight false - (s.hub i).weight true = -1 := by
    cases s.hub i <;> rfl
  simp only [State.setFlag, update_self, hflag] at hsum
  simp only [State.owed, State.setFlag]
  omega

theorem cas_frame (hcall : s.call c = .cas one i)
    (hflag : s.idleParked i = true) :
    CallFrame c p False s ((s.setFlag i false).setCall c (.uncounts one i)) := by
  have hset := setCall_frame (c := c) (p := p) (s := s.setFlag i false) (x := .uncounts one i)
    (by simp [State.setFlag, hcall, Call.kicks])
  refine ⟨rfl, ?_, ?_, hset.kicked, hset.call, hset.queue⟩
  · intro j hj
    by_cases hji : j = i
    · exact hji ▸ hflag
    · simpa [State.setFlag, State.setCall, update_of_ne hji] using hj
  · intro j hj
    by_cases hji : j = i
    · exact .inr (.inr ⟨c, by simp [State.setCall, Call.kicks, hji]⟩)
    · exact .inl (by simpa [State.setFlag, State.setCall, update_of_ne hji] using hj)

theorem cas_inv (hi : Inv n m p s) (hc : c < n + m)
    (hcall : s.call c = .cas one i) (hflag : s.idleParked i = true) :
    Inv n m p ((s.setFlag i false).setCall c (.uncounts one i)) := by
  have hin : i < n := hi.aims c one i hcall
  have hbusy : s.call c ≠ .idle := by rw [hcall]; nofun
  have hx : ((s.setFlag i false).setCall c (.uncounts one i)).call c = .uncounts one i :=
    update_self ..
  refine (cas_frame hcall hflag).inv hi ?_ (fun hlt _ => hi.calls c hlt hbusy) ?_ ?_ ?_
    (fun h => h.elim)
  · have howed := owed_setCall (s := s.setFlag i false) (x := .uncounts one i) hc
    have hhint := hi.hint
    have hweight : ((s.setFlag i false).call c).weight = 0 := by
      change (s.call c).weight = 0
      rw [hcall]
      rfl
    rw [howed, hweight, owed_setFlag hin hflag]
    change s.nidle = s.owed n m - 1 + (1 - 0)
    omega
  · rw [hx]
    rintro i (h | h) <;> cases h
  · rw [hx]
    intros; contradiction
  · rw [hx]
    rintro j rfl
    refine ⟨hin, fun hp hq hic => ?_⟩
    subst hic
    -- the owner is in the call, so it does not park
    obtain ⟨hparks, -⟩ := hi.own i hp hq hflag
    rcases hi.calls i hin hbusy with hpc | hpc <;> rw [hpc] at hparks <;> exact hparks

theorem uncounts_inv (hi : Inv n m p s) (hc : c < n + m)
    (hcall : s.call c = .uncounts one i) :
    Inv n m p ((s.addIdle (-1)).setCall c (.signals one i)) := by
  have hbusy : s.call c ≠ .idle := by rw [hcall]; nofun
  have hx : ((s.addIdle (-1)).setCall c (.signals one i)).call c = .signals one i :=
    update_self ..
  have hset : CallFrame c p False s (s.setCall c (.signals one i)) := setCall_frame (by
    rw [hcall]
    exact fun j hk => hk)
  have hf : CallFrame c p False s ((s.addIdle (-1)).setCall c (.signals one i)) :=
    ⟨rfl, hset.flag, hset.cleared, hset.kicked, hset.call, hset.queue⟩
  refine hf.inv hi ?_ (fun hlt _ => hi.calls c hlt hbusy) ?_ ?_ ?_ (fun h => h.elim)
  · have howed := owed_setCall (s := s) (x := .signals one i) hc
    have hhint := hi.hint
    rw [hcall] at howed
    change s.nidle + -1 = (s.setCall c (.signals one i)).owed n m
    rw [howed]
    simp only [Call.weight]
    omega
  · rw [hx]
    rintro i (h | h) <;> cases h
  · rw [hx]
    intros; contradiction
  · rw [hx]
    intro j hk
    exact hi.hit c j (by rw [hcall]; exact hk)

theorem signals_inv (hi : Inv n m p s) (hc : c < n + m)
    (hcall : s.call c = .signals one i) :
    Inv n m p ((s.setSignalled i true).complete c one i) := by
  have hlt := hi.hit c i (by rw [hcall]; rfl)
  refine complete_inv hi hc ?_ ?_ (by rw [hcall]; rfl) ?_
  · intro j hj
    by_cases hji : j = i
    · rw [hji, update_self]
    · rwa [update_of_ne hji]
  · intro j hk
    rw [hcall] at hk
    obtain rfl : i = j := hk
    exact update_self ..
  · rintro hcovers he ⟨h, hh⟩
    refine ⟨i, ?_, .inr (update_self ..)⟩
    cases one with
    | true =>
      have hp : p.isPinned = false := by simpa [State.covers] using hcovers
      obtain ⟨e, hmem, hec⟩ := he
      exact takes_of_ne hi ⟨e, hmem, hec⟩ hp hlt.1 fun hpc => hlt.2 hpc (List.ne_nil_of_mem hmem)
    | false =>
      have hp : p = .pinned i := by simpa [State.covers] using hcovers
      exact hh.pinned hp ▸ hh

/-- The fast path of `wakep_one`. -/
theorem hint_inv (hi : Inv n m p s) (hc : c < n + m) (hcall : s.call c = .hint)
    (hhint : s.nidle ≤ 0) : Inv n m p (s.complete c true 0) := by
  refine complete_inv hi hc (fun _ => id) (by rw [hcall]; exact fun j hk => hk.elim)
    (by rw [hcall]; rfl) ?_
  rintro hcovers he ⟨h, hh⟩
  rcases exists_counts hi hhint with hnone | ⟨k, hk, hcounts⟩
  · exact ⟨h, hh, .inl (aware_of_not_flagged hi (hnone h (takes_lt hh)))⟩
  · have hp : p.isPinned = false := by simpa [State.covers] using hcovers
    refine ⟨k, takes_of_ne hi he hp hk fun _ hkc => ?_, .inl (.inl (by rw [hcounts]; trivial))⟩
    subst hkc
    rcases hi.calls k hk (by rw [hcall]; nofun) with hpc | hpc <;> rw [hpc] at hcounts <;>
      cases hcounts

/-- The end of the loop of `wakep_one`, or a pin past the last hub. -/
theorem reads_all_inv (hi : Inv n m p s) (hc : c < n + m)
    (hcall : s.call c = .reads one i) (hin : ¬ i < n) : Inv n m p (s.complete c one i) := by
  refine complete_inv hi hc (fun _ => id) (by rw [hcall]; exact fun j hk => hk.elim)
    (by rw [hcall]; rfl) ?_
  rintro hcovers he ⟨h, hh⟩
  have hlt := takes_lt hh
  cases one with
  | true =>
    have hp : p.isPinned = false := by simpa [State.covers] using hcovers
    exact ⟨h, hh, .inl (hi.passed c i (.inl hcall) hp he h (by omega) hh)⟩
  | false =>
    have hp : p = .pinned i := by simpa [State.covers] using hcovers
    have hhi := hh.pinned hp
    omega

theorem callStep_inv (hi : Inv n m p s) (hc : c < n + m) (hs : s.callStep n c = some t) :
    Inv n m p t := by
  cases hcall : s.call c with
  | idle => simp [State.callStep, hcall] at hs
  | hint =>
    simp only [State.callStep, hcall, Option.some.injEq] at hs
    subst hs
    split
    · next hhint => exact hint_inv hi hc hcall hhint
    · refine setCall_inv hi hc (fun hlt => hi.calls c hlt (by rw [hcall]; nofun)) ?_ ?_ ?_ nofun
        (fun j hk => hk.elim)
      · rw [hcall]
        exact fun j hk => hk.elim
      · rw [hcall]
        rfl
      · rintro i (h | h) _ _ j hj <;> cases h
        cases hj
  | reads one i =>
    simp only [State.callStep, hcall] at hs
    split at hs
    · next hin =>
      cases hs
      split
      · refine setCall_inv hi hc (fun hlt => hi.calls c hlt (by rw [hcall]; nofun)) ?_ ?_ ?_ ?_
          (fun j hk => hk.elim)
        · rw [hcall]
          exact fun j hk => hk.elim
        · rw [hcall]
          rfl
        · rintro i' (h | h) <;> cases h
          exact hi.passed c i (.inl hcall)
        · rintro one' i' h
          cases h
          exact hin
      · next hflag => exact missed_inv hi hc (.inl hcall) (eq_false_of_ne_true hflag)
    · next hin =>
      cases hs
      exact reads_all_inv hi hc hcall hin
  | cas one i =>
    simp only [State.callStep, hcall, Option.some.injEq] at hs
    subst hs
    split
    · next hflag => exact cas_inv hi hc hcall hflag
    · next hflag => exact missed_inv hi hc (.inr hcall) (eq_false_of_ne_true hflag)
  | uncounts one i =>
    simp only [State.callStep, hcall, Option.some.injEq] at hs
    exact hs ▸ uncounts_inv hi hc hcall
  | signals one i =>
    simp only [State.callStep, hcall, Option.some.injEq] at hs
    exact hs ▸ signals_inv hi hc hcall

end CallStep

section Step

variable {n m : ℕ} {p : Place} {s t : State}

/-- The queue of the place lost entries, or nothing that matters to it changed. -/
theorem queue_inv (hi : Inv n m p s) (queue : Place → List Entry) (yieldq : ℕ → ℕ)
    (hq : queue p ⊆ s.queue p) :
    Inv n m p { s with queue := queue, yieldq := yieldq } := by
  have hf : CallFrame 0 p False s { s with queue := queue, yieldq := yieldq } :=
    ⟨rfl, fun _ => id, fun _ => .inl, fun _ hk => kicked_congr rfl rfl hk, fun _ _ => rfl,
      fun e he => ⟨e, hq he, rfl, .inl⟩⟩
  exact hf.inv hi hi.hint (hi.calls 0) (hi.passed 0) (hi.aims 0) (hi.hit 0) (fun h => h.elim)

/-- The producer has no call under way, so nothing is said about its entry yet. -/
theorem push_here_inv (hi : Inv n m p s) {c g : ℕ} (hfree : s.Free n m c)
    (hpushed : p.pushedBy n c) (hok : p = .deque c → s.idleParked c = false)
    {queue : Place → List Entry} (hq : queue p = s.queue p ++ [⟨g, c, false⟩]) :
    Inv n m p { s with queue := queue } := by
  have hmem : ∀ e ∈ queue p, e ∈ s.queue p ∨ e = ⟨g, c, false⟩ := by
    intro e he
    simpa [hq] using he
  have haware : ∀ j, s.Aware p j → { s with queue := queue }.Aware p j :=
    fun j ha => ha.imp id (kicked_congr rfl rfl)
  constructor
  case flagged => exact hi.flagged
  case kicked => exact fun j hp => (hi.kicked j hp).imp id (kicked_congr rfl rfl)
  case hint => exact hi.hint
  case calls => exact hi.calls
  case aims => exact hi.aims
  case mine =>
    rintro o rfl e he
    rcases hmem e he with he | rfl
    · exact hi.mine o rfl e he
    · exact ⟨hpushed.1.symm, hpushed.2⟩
  case own =>
    rintro o rfl - hflag
    obtain ⟨rfl, -⟩ := hpushed
    rw [hok rfl] at hflag
    cases hflag
  case passed =>
    rintro k i hk hp ⟨e, he, hek⟩ j hj htakes
    rcases hmem e he with he | rfl
    · exact haware j (hi.passed k i hk hp ⟨e, he, hek⟩ j hj htakes)
    · obtain rfl : c = k := hek
      rcases hk with hk | hk <;> cases hfree.2.1.symm.trans hk
  case hit =>
    intro k i hk
    refine ⟨(hi.hit k i hk).1, fun hp _ => ?_⟩
    subst hp
    obtain ⟨rfl, -⟩ := hpushed
    change (s.call k).kicks i at hk
    rw [hfree.2.1] at hk
    exact hk.elim
  case told =>
    rintro ⟨e, he, htold⟩ htakes
    rcases hmem e he with he | rfl
    · obtain ⟨j, hj, ha⟩ := hi.told ⟨e, he, htold⟩ htakes
      exact ⟨j, hj, haware j ha⟩
    · cases htold

theorem push_inv (hi : Inv n m p s) {c g : ℕ} {q : Place} (hfree : s.Free n m c)
    (hpushed : q.pushedBy n c) (hok : Unregistered p s (.push c q g)) :
    Inv n m p { s with queue := update s.queue q (s.queue q ++ [⟨g, c, false⟩]) } := by
  by_cases hpq : q = p
  · subst hpq
    exact push_here_inv hi hfree hpushed (hok rfl) (update_self ..)
  · refine queue_inv hi _ s.yieldq ?_
    rw [update_of_ne (Ne.symm hpq)]
    exact List.Subset.refl _

/-- A call begins. -/
theorem begin_inv (hi : Inv n m p s) {c : ℕ} (hfree : s.Free n m c) {x : Call}
    (hw : x.weight = 0) (hkicks : ∀ i, ¬ x.kicks i) (hcas : ∀ one i, x ≠ .cas one i)
    (hreads : ∀ i, x ≠ .reads true i) : Inv n m p (s.setCall c x) := by
  obtain ⟨hc, hidle, hpc⟩ := hfree
  refine setCall_inv hi hc hpc ?_ ?_ ?_ (fun one i h => absurd h (hcas one i))
    (fun i hk => absurd hk (hkicks i))
  · rw [hidle]
    exact fun j hk => hk.elim
  · rw [hidle, hw]
    rfl
  · rintro i (h | h)
    · exact absurd h (hreads i)
    · exact absurd h (hcas true i)

theorem step_inv {a : Action} (hi : Inv n m p s) (hok : Unregistered p s a)
    (hs : step n m s a = some t) : Inv n m p t := by
  cases a with
  | push c q g =>
    simp only [step] at hs
    split at hs
    · next hc => cases hs; exact push_inv hi hc.1 hc.2 hok
    · cases hs
  | take q k =>
    simp only [step, Option.some.injEq] at hs
    subst hs
    refine queue_inv hi _ s.yieldq ?_
    by_cases hpq : p = q
    · subst hpq
      rw [update_self]
      exact List.eraseIdx_subset
    · rw [update_of_ne hpq]
      exact List.Subset.refl _
  | yields h size =>
    simp only [step, Option.some.injEq] at hs
    exact hs ▸ queue_inv hi s.queue _ (List.Subset.refl _)
  | park h =>
    simp only [step] at hs
    split at hs
    · next hc => cases hs; exact (HubMove.park hc.2.1).inv hi hc.1 hc.2.2
    · cases hs
  | leave h =>
    simp only [step] at hs
    split at hs
    · next hc =>
      cases hs
      refine (HubMove.leave hc.2).inv hi hc.1 ?_
      by_contra hbusy
      rcases hi.calls h hc.1 hbusy with hpc | hpc <;> cases hc.2.symm.trans hpc
    · cases hs
  | hub h =>
    simp only [step] at hs
    split at hs
    · next hc => exact (hubStep_moves hs).inv hi hc.1 hc.2
    · cases hs
  | wakepOne c =>
    simp only [step] at hs
    split at hs
    · next hc => cases hs; exact begin_inv hi hc rfl (fun _ => id) nofun nofun
    · cases hs
  | wakepPinned c k =>
    simp only [step] at hs
    split at hs
    · next hc => cases hs; exact begin_inv hi hc rfl (fun _ => id) nofun nofun
    · cases hs
  | call c =>
    simp only [step] at hs
    split at hs
    · next hc => exact callStep_inv hi hc hs
    · cases hs

theorem start_inv : Inv n m p start where
  flagged := (by intros; contradiction)
  kicked _ h := h.elim
  hint := by simp [State.owed, start, Hub.weight, Call.weight]
  calls _ _ h := absurd rfl h
  mine := (by intros; contradiction)
  own _ _ h := absurd rfl h
  passed _ _ h := by rcases h with h | h <;> cases h
  aims := (by intros; contradiction)
  hit _ _ h := h.elim
  told := nofun

/-- Where no hub pushes onto the place with its own flag set, no entry there is left to hubs that
all sleep. For the run-queue and for a pin this says nothing about the runs. -/
theorem reachable_not_stranded_at
    (hr : Reachable ((system n m).restrict (Unregistered p)) s) : ¬ s.Stranded n p := by
  refine Inv.unstranded (m := m) (Reachable.invariant ?_ ?_ hr)
  · rintro _ rfl
    exact start_inv
  · intro s a t _ hi hs
    obtain ⟨hok, hs⟩ := System.restrict_step.mp hs
    exact step_inv hi hok hs

end Step

/-- Hub 1 is parked when hub 0 pushes onto its deque, and is kicked. -/
theorem reachable_not_stranded_at_kicked : ∃ s,
    Reachable ((system 2 0).restrict (Unregistered (.deque 0))) s ∧
    s.queue (.deque 0) = [⟨7, 0, true⟩] ∧ s.hub 1 = .blocked ∧ s.signalled 1 = true ∧
    ¬ s.Stranded 2 (.deque 0) := by
  have hrun : (((system 2 0).restrict (Unregistered (.deque 0))).run start
      (Action.park 1 :: List.replicate 10 (.hub 1) ++ [Action.push 0 (.deque 0) 7, .wakepOne 0] ++
        List.replicate 6 (Action.call 0))).map (fun s => (s.queue (.deque 0), s.hub 1, s.signalled 1)) =
      some ([⟨7, 0, true⟩], .blocked, true) := by decide +kernel
  obtain ⟨s, hs, hobs⟩ := Option.map_eq_some_iff.mp hrun
  simp only [Prod.mk.injEq] at hobs
  have hr := reachable_of_run _ _ rfl hs
  exact ⟨s, hr, hobs.1, hobs.2.1, hobs.2.2, reachable_not_stranded_at hr⟩

theorem callStep_call {n c k : ℕ} {s t : State} (hs : s.callStep n c = some t) (hk : k ≠ c) :
    t.call k = s.call k := by
  have hmissed (one : Bool) (i : ℕ) : (s.missed c one i).call k = s.call k := by
    cases one <;> exact update_of_ne hk ..
  cases hcall : s.call c with
  | idle => simp [State.callStep, hcall] at hs
  | hint =>
    simp only [State.callStep, hcall, Option.some.injEq] at hs
    subst hs
    split <;> exact update_of_ne hk ..
  | reads one i =>
    simp only [State.callStep, hcall] at hs
    split at hs
    · cases hs
      split
      · exact update_of_ne hk ..
      · exact hmissed one i
    · cases hs
      exact update_of_ne hk ..
  | cas one i =>
    simp only [State.callStep, hcall, Option.some.injEq] at hs
    subst hs
    split
    · exact update_of_ne hk ..
    · exact hmissed one i
  | uncounts one i =>
    simp only [State.callStep, hcall, Option.some.injEq] at hs
    exact hs ▸ update_of_ne hk ..
  | signals one i =>
    simp only [State.callStep, hcall, Option.some.injEq] at hs
    exact hs ▸ update_of_ne hk ..

/-- There are no other threads. -/
theorem call_idle_of_le {n m k : ℕ} {s : State} (hr : Reachable (system n m) s)
    (hk : n + m ≤ k) : s.call k = .idle := by
  refine Reachable.invariant (P := fun s => s.call k = .idle) ?_ ?_ hr
  · rintro _ rfl
    rfl
  · intro s a t _ hidle hs
    rw [← hidle]
    cases a with
    | take | yields =>
      simp only [system, step, Option.some.injEq] at hs
      exact hs ▸ rfl
    | push | park | leave =>
      simp only [system, step] at hs
      split at hs <;> cases hs
      rfl
    | hub h =>
      simp only [system, step] at hs
      split at hs
      · rw [(hubStep_moves hs).frame.call]
      · cases hs
    | wakepOne c | wakepPinned c i =>
      simp only [system, step] at hs
      split at hs
      · next hfree =>
        cases hs
        have hlt := hfree.1
        exact update_of_ne (by omega) ..
      · cases hs
    | call c =>
      simp only [system, step] at hs
      split at hs
      · exact callStep_call hs (by omega)
      · cases hs

/-- Both hubs park. Hub 0 is back from the wait, and its pump wakes a g: the kick for it goes to
hub 0, which has its flag set still. -/
theorem own_kick_strands : ∃ s, Reachable (system 2 0) s ∧ s.hub 0 = .woke ∧
    s.queue (.deque 0) = [⟨7, 0, true⟩] ∧ s.Stranded 2 (.deque 0) := by
  have hrun : ((system 2 0).run start
      (Action.park 1 :: List.replicate 10 (.hub 1) ++ Action.park 0 :: List.replicate 10 (.hub 0) ++
        [Action.leave 0, .push 0 (.deque 0) 7, .wakepOne 0] ++ List.replicate 5 (Action.call 0))).map
      (fun s => (s.queue (.deque 0), s.hub 0, s.hub 1, s.signalled 1, s.call 0, s.call 1)) =
      some ([⟨7, 0, true⟩], .woke, .blocked, false, .idle, .idle) := by decide +kernel
  obtain ⟨s, hs, hobs⟩ := Option.map_eq_some_iff.mp hrun
  simp only [Prod.mk.injEq] at hobs
  obtain ⟨hqueue, hhub, hblocked, hsignalled, hcall⟩ := hobs
  have hr := reachable_of_run _ _ rfl hs
  have hmem : ⟨7, 0, true⟩ ∈ s.queue (.deque 0) := by simp [hqueue]
  refine ⟨s, hr, hhub, hqueue, ⟨_, hmem, rfl⟩, ⟨1, by decide, by decide⟩, ?_⟩
  rintro h ⟨hlt, hne⟩
  obtain rfl : h = 1 := by omega
  refine ⟨hblocked, ?_⟩
  rintro (hset | ⟨t, ht⟩)
  · rw [hsignalled] at hset
    cases hset
  · have hidle : s.call t = .idle := by
      match t with
      | 0 => exact hcall.1
      | 1 => exact hcall.2
      | t + 2 => exact call_idle_of_le hr (Nat.le_add_left 2 t)
    rw [hidle] at ht
    exact ht

end Stackweave.Wakep
