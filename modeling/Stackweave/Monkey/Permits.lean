import Stackweave.Monkey.Semaphore

/-!
# Permits in hand

What a user of a `CoSemaphore` relies on who acquires without a deadline, never cancels and
releases one permit at a time: the permits that were reported to somebody and not yet given back
are no more than the semaphore had at first. The permits handed to a waiter are counted when its
`acquire` reports them.
-/

namespace Stackweave.Monkey.Semaphore

open Transition Function

variable {initial : ℕ} {bounded : Bool} {s t : State} {f : ℕ}

/-! ## Each waiter reports once -/

/-- No two calls have the same waiter, and a waiter that has reported has no call any more. -/
structure Once (s : State) : Prop where
  unique : ∀ f g w, (s.pc f).waiter = some w → (s.pc g).waiter = some w → f = g
  unreported : ∀ f w, (s.pc f).waiter = some w → w ∉ s.sem.results.map Prod.fst
  results : (s.sem.results.map Prod.fst).Nodup

theorem once_init (initial : ℕ) (bounded : Bool) : Once (init initial bounded) where
  unique := by rintro _ _ _ ⟨⟩
  unreported := by rintro _ _ ⟨⟩
  results := List.nodup_nil

/-- A step of one caller that reports nothing. A waiter that it has afterwards it had before, or
it is new. -/
theorem Once.section (h : Inv initial bounded s) (ho : Once s) {r : Sem × Pc}
    (hr : r.1.results = s.sem.results)
    (hw : ∀ w, r.2.waiter = some w → (s.pc f).waiter = some w ∨ w = s.sem.count) :
    Once (s.section f r) := by
  have hself : (s.section f r).pc f = r.2 := update_self ..
  have hold : ∀ e, e ≠ f → (s.section f r).pc e = s.pc e := fun e hef =>
    update_of_ne hef _ _
  have old (g w : ℕ) (hg : g ≠ f) (hgw : (s.pc g).waiter = some w) : r.2.waiter ≠ some w := by
    intro hfw
    rcases hw w hfw with hw | rfl
    · exact hg (ho.unique g f w hgw hw)
    · exact absurd (h.calls g _ hgw) (Nat.lt_irrefl _)
  refine ⟨fun g k w hg hk => ?_, fun g w hg => ?_, ?_⟩
  · by_cases hgf : g = f <;> by_cases hkf : k = f
    · rw [hgf, hkf]
    · subst hgf
      rw [hself] at hg
      rw [hold k hkf] at hk
      exact absurd hg (old k w hkf hk)
    · subst hkf
      rw [hself] at hk
      rw [hold g hgf] at hg
      exact absurd hk (old g w hgf hg)
    · rw [hold g hgf] at hg
      rw [hold k hkf] at hk
      exact ho.unique g k w hg hk
  · rw [show (s.section f r).sem.results = s.sem.results from hr]
    by_cases hgf : g = f
    · subst hgf
      rw [hself] at hg
      rcases hw w hg with hw | rfl
      · exact ho.unreported g w hw
      · intro hmem
        obtain ⟨⟨w, b⟩, hwb, rfl⟩ := List.mem_map.mp hmem
        exact absurd (h.book.results _ b hwb).1 (Nat.lt_irrefl _)
    · rw [hold g hgf] at hg
      exact ho.unreported g w hg
  · rw [show (s.section f r).sem.results = s.sem.results from hr]
    exact ho.results

theorem Once.goto (h : Inv initial bounded s) (ho : Once s) {q : Pc}
    (hw : ∀ w, q.waiter = some w → (s.pc f).waiter = some w) : Once (s.goto f q) :=
  Once.section (r := (s.sem, q)) h ho rfl fun w hq => .inl (hw w hq)

theorem Once.leave (ho : Once s) {w : ℕ} (hf : s.pc f = .leave w) (b : Bool) :
    Once (s.section f ({ s.sem with results := s.sem.results ++ [(w, b)] },
      .returned (some b))) := by
  have hfw : (s.pc f).waiter = some w := by rw [hf]; rfl
  have hother (g v : ℕ) (hg : ((update s.pc f (.returned (some b))) g).waiter = some v) :
      g ≠ f ∧ (s.pc g).waiter = some v := by
    by_cases hgf : g = f
    · rw [hgf, update_self] at hg
      cases hg
    · exact ⟨hgf, by rwa [update_of_ne hgf] at hg⟩
  refine ⟨fun g k v hg hk => ?_, fun g v hg => ?_, ?_⟩
  · exact ho.unique g k v (hother g v hg).2 (hother k v hk).2
  · obtain ⟨hgf, hgw⟩ := hother g v hg
    simp only [State.section, List.map_append, List.map_cons, List.map_nil, List.mem_append,
      List.mem_singleton, not_or]
    refine ⟨ho.unreported g v hgw, ?_⟩
    rintro rfl
    exact hgf (ho.unique g f v hgw hfw)
  · simp only [State.section, List.map_append, List.map_cons, List.map_nil]
    refine List.nodup_append.mpr ⟨ho.results, List.nodup_singleton w, fun v hv u hu => ?_⟩
    rw [List.mem_singleton.mp hu]
    rintro rfl
    exact ho.unreported f _ hfw hv

/-! ## The count -/

/-- How many waiters have reported a permit. -/
def Sem.reported (m : Sem) : ℕ := (m.results.filter (·.2)).length

/-- Permits reported and not given back. -/
def Sem.inHand (m : Sem) : ℤ := m.taken + m.reported - m.released

/-- Only what was handed over is reported, each waiter once. -/
theorem reported_le (h : Inv initial bounded s) (ho : Once s) :
    s.sem.reported ≤ s.sem.handed.length := by
  have hnodup : ((s.sem.results.filter (·.2)).map Prod.fst).Nodup :=
    ho.results.sublist (List.filter_sublist.map Prod.fst)
  have hsub : (s.sem.results.filter (·.2)).map Prod.fst ⊆ s.sem.handed := by
    intro w hw
    obtain ⟨⟨w, b⟩, hwb, rfl⟩ := List.mem_map.mp hw
    obtain ⟨hmem, hb⟩ := List.mem_filter.mp hwb
    exact (h.book.results w b hmem).2.1.mp hb
  have hlen := hnodup.length_le_of_subset hsub
  rwa [List.length_map] at hlen

theorem inHand_le (h : Inv initial bounded s) (ho : Once s) : s.sem.inHand ≤ initial := by
  have hc := h.book.conserved
  have hr := reported_le h ho
  unfold Sem.inHand
  omega

/-! ## The callers -/

/-- In an `acquire` without a deadline that has not returned. -/
@[grind =]
def Pc.acquires : Pc → Bool
  | .register false | .loop false _ | .check false _ | .deadline false _ | .parked false _ => true
  | .leave _ => true
  | _ => false

/-- In a `release` that has not returned. -/
@[grind =]
def Pc.releases : Pc → Bool
  | .release _ _ | .waking _ => true
  | _ => false

/-- The permits that a `release` has yet to give. -/
def Pc.owes : Pc → ℕ
  | .release n _ => n
  | _ => 0

/-- A semaphore that is only used this way. -/
structure Client (initial : ℕ) (s : State) : Prop where
  inv : Inv initial false s
  once : Once s
  calm : s.sem.cancelled = false
  leaves : ∀ f w, s.pc f = .leave w → s.sem.got w = true

theorem client_init (initial : ℕ) : Client initial (init initial false) where
  inv := inv_init initial false
  once := once_init initial false
  calm := rfl
  leaves := by rintro _ _ ⟨⟩

/-- What a step of one caller comes to: `q` is where it is then. -/
structure Turn (initial : ℕ) (s t : State) (f : ℕ) (q : Pc) : Prop where
  client : Client initial t
  self : t.pc f = q
  others : ∀ g, g ≠ f → t.pc g = s.pc g

/-- A guarded section of a client. -/
theorem Client.section (h : Client initial s) {r : Sem × Pc}
    (hi : Inv initial false (s.section f r)) (ho : Once (s.section f r))
    (hcalm : r.1.cancelled = false)
    (hgot : ∀ w, w < s.sem.count → s.sem.got w = true → r.1.got w = true)
    (hleave : ∀ w, r.2 = .leave w → r.1.got w = true) : Turn initial s (s.section f r) f r.2 := by
  have hself : (s.section f r).pc f = r.2 := update_self ..
  have hold : ∀ e, e ≠ f → (s.section f r).pc e = s.pc e := fun e hef =>
    update_of_ne hef _ _
  refine ⟨⟨hi, ho, hcalm, fun g w hg => ?_⟩, hself, hold⟩
  by_cases hgf : g = f
  · subst hgf
    rw [hself] at hg
    exact hleave w hg
  · rw [hold g hgf] at hg
    exact hgot w (h.inv.calls g w (by rw [hg]; rfl)) (h.leaves g w hg)

theorem Client.goto (h : Client initial s) {q : Pc} (hi : Inv initial false (s.goto f q))
    (hw : ∀ w, q.waiter = some w → (s.pc f).waiter = some w)
    (hleave : ∀ w, q = .leave w → s.sem.got w = true) : Turn initial s (s.goto f q) f q :=
  h.section (r := (s.sem, q)) hi (Once.goto h.inv h.once hw) h.calm (fun _ _ hg => hg) hleave

theorem Turn.woken {q : Pc} (h : Turn initial s t f q) (woken : ℕ → Bool) :
    Turn initial s { t with woken := woken } f q where
  client :=
    { inv := h.client.inv.woken woken, calm := h.client.calm, leaves := h.client.leaves
      once := ⟨h.client.once.unique, h.client.once.unreported, h.client.once.results⟩ }
  self := h.self
  others := h.others

theorem Client.acquire (h : Client initial s)
    (hs : step s (.acquire f true false true) = some t) :
    (Turn initial s t f (.returned (some true)) ∧ t.sem.inHand = s.sem.inHand + 1) ∨
      Turn initial s t f (.register false) ∧ t.sem.inHand = s.sem.inHand := by
  have hi := h.inv.step hs
  obtain ⟨-, ht⟩ := Option.ite_none_right_eq_some.mp hs
  cases ht
  unfold Sem.acquire at hi ⊢
  by_cases hv : 0 < s.sem.value
  · rw [if_pos hv] at hi ⊢
    refine .inl ⟨h.section hi (Once.section h.inv h.once rfl (by rintro _ ⟨⟩)) h.calm (fun _ _ hg => hg) (by rintro _ ⟨⟩), ?_⟩
    simp only [State.section, Sem.inHand, Sem.take, Sem.reported]
    omega
  · simp only [if_neg hv, h.calm, Bool.true_eq_false, Bool.false_eq_true, if_false] at hi ⊢
    exact .inr ⟨h.goto hi (by rintro _ ⟨⟩) (by rintro _ ⟨⟩), rfl⟩

theorem Client.register (h : Client initial s) (hf : s.pc f = .register false)
    (hs : callerStep s f = some t) :
    (Turn initial s t f (.returned (some true)) ∧ t.sem.inHand = s.sem.inHand + 1) ∨
      ∃ w, Turn initial s t f (.loop false w) ∧ t.sem.inHand = s.sem.inHand := by
  have hi := h.inv.callerStep hs
  simp only [callerStep, hf, Option.some.injEq] at hs
  subst hs
  unfold Sem.register at hi ⊢
  by_cases hv : 0 < s.sem.value
  · rw [if_pos hv] at hi ⊢
    refine .inl ⟨h.section hi (Once.section h.inv h.once rfl (by rintro _ ⟨⟩)) h.calm (fun _ _ hg => hg) (by rintro _ ⟨⟩), ?_⟩
    simp only [State.section, Sem.inHand, Sem.take, Sem.reported]
    omega
  · simp only [if_neg hv, h.calm, Bool.false_eq_true, if_false] at hi ⊢
    refine .inr ⟨s.sem.count, h.section hi (Once.section h.inv h.once rfl ?_) rfl ?_ (by rintro _ ⟨⟩), rfl⟩
    · rintro w hw
      cases hw
      exact .inr rfl
    · intro w hw hg
      change update s.sem.got s.sem.count false w = true
      rw [update_of_ne (Nat.ne_of_lt hw)]
      exact hg

/-- A turn of an `acquire`. -/
theorem Client.acquires (h : Client initial s) (hf : (s.pc f).acquires = true)
    (hs : callerStep s f = some t) :
    (Turn initial s t f (.returned (some true)) ∧ t.sem.inHand = s.sem.inHand + 1) ∨
      ∃ q, Turn initial s t f q ∧ q.acquires = true ∧ t.sem.inHand = s.sem.inHand := by
  have hi := h.inv.callerStep hs
  cases hpc : s.pc f with
  | register timed =>
    cases timed with
    | true => simp [hpc, Pc.acquires] at hf
    | false =>
      rcases h.register hpc hs with h | ⟨w, h, hc⟩
      · exact .inl h
      · exact .inr ⟨_, h, rfl, hc⟩
  | loop timed w =>
    obtain rfl : timed = false := by cases timed <;> simp_all [Pc.acquires]
    simp only [callerStep, hpc, Option.some.injEq] at hs
    subst hs
    refine .inr ⟨_, h.goto hi ?_ ?_, ?_, rfl⟩
    · intro v
      split <;> simp [hpc, Pc.waiter]
    · intro v hv
      split at hv
      · cases hv
        assumption
      · cases hv
    · split <;> rfl
  | check timed w =>
    obtain rfl : timed = false := by cases timed <;> simp_all [Pc.acquires]
    simp only [callerStep, hpc, h.calm, Bool.false_eq_true, if_false, Option.some.injEq] at hs
    subst hs
    exact .inr ⟨_, h.goto hi (fun v hv => by rw [hpc]; exact hv) (by rintro _ ⟨⟩), rfl, rfl⟩
  | deadline timed w =>
    obtain rfl : timed = false := by cases timed <;> simp_all [Pc.acquires]
    simp only [callerStep, hpc, Option.some.injEq] at hs
    subst hs
    exact .inr ⟨_, h.goto hi (fun v hv => by rw [hpc]; exact hv) (by rintro _ ⟨⟩), rfl, rfl⟩
  | leave w =>
    have hgot := h.leaves f w hpc
    simp only [callerStep, hpc, hgot, Option.some.injEq] at hs
    subst hs
    refine .inl ⟨h.section hi (Once.leave h.once hpc true) h.calm (fun _ _ hg => hg) (by rintro _ ⟨⟩), ?_⟩
    simp only [State.section, Sem.inHand, Sem.reported, List.filter_append, List.length_append]
    simp
    omega
  | parked timed w => simp [callerStep, hpc] at hs
  | idle | returned | raised | spin | spun | inactive | release | cancel | waking =>
    simp [hpc, Pc.acquires] at hf

/-- The park of an `acquire` returns. -/
theorem Client.unpark (h : Client initial s) {a : Action} (ha : a = .resume f ∨ a = .spurious f)
    (hf : (s.pc f).acquires = true) (hs : step s a = some t) :
    ∃ q, Turn initial s t f q ∧ q.acquires = true ∧ t.sem.inHand = s.sem.inHand := by
  have hi := h.inv.step hs
  cases hpc : s.pc f with
  | parked timed w =>
    obtain rfl : timed = false := by cases timed <;> simp_all [Pc.acquires]
    have turn (hi : Inv initial false (s.goto f (.loop false w))) :
        Turn initial s (s.goto f (.loop false w)) f (.loop false w) :=
      h.goto hi (fun v hv => by rw [hpc]; exact hv) (by rintro _ ⟨⟩)
    rcases ha with rfl | rfl
    · simp only [step, hpc] at hs
      obtain ⟨-, ht⟩ := Option.ite_none_right_eq_some.mp hs
      cases ht
      exact ⟨_, (turn (hi.woken s.woken)).woken _, rfl, rfl⟩
    · simp only [step, hpc, Option.some.injEq] at hs
      subst hs
      exact ⟨_, turn hi, rfl, rfl⟩
  | idle | returned | raised | spin | spun | inactive | release | cancel | waking | register | loop
  | check | deadline | leave =>
    rcases ha with rfl | rfl <;> simp [step, hpc] at hs

theorem Client.release (h : Client initial s) (hs : step s (.release f 1) = some t) :
    Turn initial s t f (.release 1 []) ∧ t.sem.inHand = s.sem.inHand := by
  have hi := h.inv.step hs
  obtain ⟨-, ht⟩ := Option.ite_none_right_eq_some.mp hs
  simp only [h.inv.kind, Bool.false_eq_true, if_false, Option.some.injEq] at ht
  subst ht
  exact ⟨h.goto hi (by rintro _ ⟨⟩) (by rintro _ ⟨⟩), rfl⟩

theorem give_keeps (m : Sem) : m.give.1.cancelled = m.cancelled ∧ m.give.1.results = m.results ∧
    m.give.1.inHand = m.inHand - 1 ∧ ∀ w, m.got w = true → m.give.1.got w = true := by
  unfold Sem.give
  split
  · rename_i w ws hp
    refine ⟨rfl, rfl, ?_, fun v hv => ?_⟩
    · simp only [Sem.inHand, Sem.reported]
      omega
    · by_cases hvw : v = w
      · simp [hvw]
      · simpa [hvw] using hv
  · refine ⟨rfl, rfl, ?_, fun _ hv => hv⟩
    simp only [Sem.inHand, Sem.reported]
    omega

/-- A turn of a `release`. -/
theorem Client.releases (h : Client initial s) (hf : (s.pc f).releases = true)
    (hs : callerStep s f = some t) :
    ∃ q, Turn initial s t f q ∧ (q.releases = true ∨ q = .returned none) ∧
      t.sem.inHand + (s.pc f).owes = s.sem.inHand + q.owes := by
  have hi := h.inv.callerStep hs
  cases hpc : s.pc f with
  | release n woke =>
    cases n with
    | zero =>
      simp only [callerStep, hpc, Option.some.injEq] at hs
      subst hs
      exact ⟨_, h.goto hi (by rintro _ ⟨⟩) (by rintro _ ⟨⟩), .inl rfl, rfl⟩
    | succ n =>
      simp only [callerStep, hpc, Option.some.injEq] at hs
      subst hs
      obtain ⟨hcalm, hres, hhand, hgot⟩ := give_keeps s.sem
      refine ⟨_, h.section hi (Once.section h.inv h.once hres (by rintro _ ⟨⟩)) (hcalm.trans h.calm)
        (fun w _ => hgot w) (by rintro _ ⟨⟩), .inl rfl, ?_⟩
      simp only [State.section, hhand, Pc.owes]
      omega
  | waking woke =>
    cases woke with
    | nil =>
      simp only [callerStep, hpc, Option.some.injEq] at hs
      subst hs
      exact ⟨_, h.goto hi (by rintro _ ⟨⟩) (by rintro _ ⟨⟩), .inr rfl, rfl⟩
    | cons w ws =>
      simp only [callerStep, hpc, Option.some.injEq] at hs
      subst hs
      exact ⟨_, (h.goto (hi.woken s.woken) (by rintro _ ⟨⟩) (by rintro _ ⟨⟩)).woken _, .inl rfl, rfl⟩
  | idle | returned | raised | spin | spun | inactive | cancel | register | loop | check | deadline
  | leave | parked =>
    simp [hpc, Pc.releases] at hf

end Stackweave.Monkey.Semaphore
