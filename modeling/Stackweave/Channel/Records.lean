import Stackweave.Channel.Moves

/-!
# Locks, queues and claimed records

Three invariants of the channel code that hold in every interleaving, whatever
resumes a parked select.

* `Locks`: a locked channel is locked by the fiber whose section it records.
* `Linked`: a record in a queue belongs to the current park of a fiber that
  still waits in it, so no freed record is ever linked.
* `Held`: a record that a section has claimed is in no queue and in no second
  section, and a claimed select has fired on that case.

Each is kept by every `Move`. The frame lemmas before each `step` say what a
kind of move leaves alone.
-/

namespace Stackweave.Channel.Select

open Transition

variable {V : Type*} {s t : State V} {f : ℕ} {x : Fiber V} {ch : ℕ} {c : Chan V}

/-! ## Reading a state after a move -/

section Update

variable {α : Type*} {g g' : ℕ → α} {i : ℕ} {a : α}

theorem upd_self (h : g' = fun j => if j = i then a else g j) : g' i = a := by
  simp [h]

theorem upd_other (h : g' = fun j => if j = i then a else g j) {j : ℕ} (hj : j ≠ i) :
    g' j = g j := by
  simp [h, hj]

end Update

theorem goto_pc (s : State V) (f : ℕ) (pc : Pc) : ((s.goto f pc).fibers f).pc = pc := by
  simp [State.goto, State.setFiber]

theorem retry_cases (s : State V) (f : ℕ) :
    s.retry f = s.ret f .tooManyRetries ∨
      s.retry f = s.setFiber f
        { s.fibers f with retries := (s.fibers f).retries + 1, pc := .scan } := by
  unfold State.retry
  split
  · exact .inl rfl
  · exact .inr rfl

/-! ## Who holds a lock -/

/-- Between the scan and the return of a select. -/
@[grind =]
def Pc.selecting : Pc → Bool
  | .scan | .tryCase _ _ _ | .install _ | .abort _ | .selParked | .evict _ _ | .finish _ => true
  | _ => false

/-- The case that a section on `ch` works for. -/
def Job.case (ch : ℕ) : Job V → Option (Case V)
  | .hand v => some ⟨ch, .send v⟩
  | .take | .got _ => some ⟨ch, .recv⟩
  | .closeTx | .closeRx => none

structure Locks (s : State V) : Prop where
  holder : ∀ (ch : ℕ) (sec : Sect V), (s.chans ch).lock = some sec →
    (s.fibers sec.fiber).pc = .locked ch
  caller : ∀ (ch : ℕ) (sec : Sect V), (s.chans ch).lock = some sec → sec.caller ≠ .plain →
    (s.fibers sec.fiber).op.isSelect = true
  atCase : ∀ (ch : ℕ) (sec : Sect V) (c : Case V), (s.chans ch).lock = some sec →
    sec.job.case ch = some c → (s.fibers sec.fiber).op.cases[sec.caller.index]? = some c
  selecting : ∀ f, (s.fibers f).pc.selecting = true → (s.fibers f).op.isSelect = true

variable {caller : Caller} {sec e : Sect V} {i : ℕ} {d : Side} {w : Waiter} {pc : Pc}
  {l : Option (Sect V)}

theorem AtCase.pc_ne {c : Case V} (h : AtCase s f caller c) (ch : ℕ) :
    (s.fibers f).pc ≠ .locked ch := by
  cases h with
  | plain hpc _ => simp [hpc]
  | scan hpc _ _ => simp [hpc]

theorem AtCase.isSelect {c : Case V} (h : AtCase s f caller c)
    (hc : caller ≠ .plain) : (s.fibers f).op.isSelect = true := by
  cases h with
  | plain => exact absurd rfl hc
  | scan _ hop _ => rw [hop]; rfl

theorem AtCase.cases {c : Case V} (h : AtCase s f caller c) :
    (s.fibers f).op.cases[caller.index]? = some c := by
  cases h with
  | plain _ hop => rw [hop]; rfl
  | scan _ hop hc => rw [hop]; exact hc

theorem Locks.not_holder (h : Locks s) (hpc : ∀ ch, (s.fibers f).pc ≠ .locked ch)
    (hsec : (s.chans ch).lock = some sec) : sec.fiber ≠ f := by
  rintro rfl
  exact hpc ch (h.holder ch sec hsec)

/-- One fiber holds one lock. -/
theorem Locks.holder_unique (h : Locks s)
    (hsec : (s.chans ch).lock = some sec) (he : (s.chans i).lock = some e)
    (hf : e.fiber = sec.fiber) : i = ch := by
  have h1 := h.holder i e he
  have h2 := h.holder ch sec hsec
  rw [hf, h2] at h1
  exact (Pc.locked.inj h1).symm

/-- A fiber outside every section moves. -/
theorem Locks.own (h : Locks s) (hfib : t.fibers = fun j => if j = f then x else s.fibers j)
    (hlock : ∀ i, (t.chans i).lock = (s.chans i).lock)
    (hpc : ∀ ch, (s.fibers f).pc ≠ .locked ch)
    (hsel : x.pc.selecting = true → x.op.isSelect = true) : Locks t := by
  refine ⟨fun i e hs => ?_, fun i e hs hc => ?_, fun i e c hs hc => ?_, fun g hg => ?_⟩
  · rw [hlock] at hs
    rw [upd_other hfib (h.not_holder hpc hs)]
    exact h.holder i e hs
  · rw [hlock] at hs
    rw [upd_other hfib (h.not_holder hpc hs)]
    exact h.caller i e hs hc
  · rw [hlock] at hs
    rw [upd_other hfib (h.not_holder hpc hs)]
    exact h.atCase i e c hs hc
  · by_cases hgf : g = f
    · rw [hgf, upd_self hfib] at hg ⊢
      exact hsel hg
    · rw [upd_other hfib hgf] at hg ⊢
      exact h.selecting g hg

/-- A fiber takes the lock of `ch`. -/
theorem Locks.enter (h : Locks s)
    (hfib : t.fibers = fun j => if j = f then { s.fibers f with pc := .locked ch } else s.fibers j)
    (hchan : t.chans = fun i => if i = ch then c else s.chans i) (hlock : c.lock = some sec)
    (hf : sec.fiber = f) (hpc : ∀ ch, (s.fibers f).pc ≠ .locked ch)
    (hcaller : sec.caller ≠ .plain → (s.fibers f).op.isSelect = true)
    (hcase : ∀ c, sec.job.case ch = some c →
      (s.fibers f).op.cases[sec.caller.index]? = some c) : Locks t := by
  refine ⟨fun i e hs => ?_, fun i e hs hc => ?_, fun i e c hs hc => ?_, fun g hg => ?_⟩
  · by_cases hi : i = ch
    · rw [hi, upd_self hchan, hlock] at hs
      cases hs
      rw [hf, upd_self hfib, hi]
    · rw [upd_other hchan hi] at hs
      rw [upd_other hfib (h.not_holder hpc hs)]
      exact h.holder i e hs
  · by_cases hi : i = ch
    · rw [hi, upd_self hchan, hlock] at hs
      cases hs
      rw [hf, upd_self hfib]
      exact hcaller hc
    · rw [upd_other hchan hi] at hs
      rw [upd_other hfib (h.not_holder hpc hs)]
      exact h.caller i e hs hc
  · by_cases hi : i = ch
    · rw [hi, upd_self hchan, hlock] at hs
      cases hs
      rw [hf, upd_self hfib]
      exact hcase c (hi ▸ hc)
    · rw [upd_other hchan hi] at hs
      rw [upd_other hfib (h.not_holder hpc hs)]
      exact h.atCase i e c hs hc
  · by_cases hgf : g = f
    · rw [hgf, upd_self hfib] at hg
      cases hg
    · rw [upd_other hfib hgf] at hg ⊢
      exact h.selecting g hg

/-- A fiber stays in its section. -/
theorem Locks.stay (h : Locks s) (hsec : (s.chans ch).lock = some sec)
    (hfib : t.fibers = s.fibers) (hchan : t.chans = fun i => if i = ch then c else s.chans i)
    (hlock : c.lock = some e)
    (hkeep : e.fiber = sec.fiber ∧ e.caller = sec.caller ∧ e.job.case ch = sec.job.case ch) :
    Locks t := by
  refine ⟨fun i e hs => ?_, fun i e hs hc => ?_, fun i e c hs hc => ?_, fun g hg => ?_⟩
  · rw [hfib]
    by_cases hi : i = ch
    · rw [hi, upd_self hchan, hlock] at hs
      cases hs
      rw [hkeep.1, hi]
      exact h.holder ch sec hsec
    · rw [upd_other hchan hi] at hs
      exact h.holder i e hs
  · rw [hfib]
    by_cases hi : i = ch
    · rw [hi, upd_self hchan, hlock] at hs
      cases hs
      rw [hkeep.1]
      exact h.caller ch sec hsec (hkeep.2.1 ▸ hc)
    · rw [upd_other hchan hi] at hs
      exact h.caller i e hs hc
  · rw [hfib]
    by_cases hi : i = ch
    · rw [hi, upd_self hchan, hlock] at hs
      cases hs
      rw [hi, hkeep.2.2] at hc
      rw [hkeep.1, hkeep.2.1]
      exact h.atCase ch sec c hsec hc
    · rw [upd_other hchan hi] at hs
      exact h.atCase i e c hs hc
  · rw [hfib] at hg ⊢
    exact h.selecting g hg

/-- A fiber leaves the section of `ch`. -/
theorem Locks.leave (h : Locks s) (hsec : (s.chans ch).lock = some sec)
    (hf : sec.fiber = f) (hfib : t.fibers = fun j => if j = f then x else s.fibers j)
    (hchan : t.chans = fun i => if i = ch then c else s.chans i) (hlock : c.lock = none)
    (hsel : x.pc.selecting = true → x.op.isSelect = true) : Locks t := by
  have hold : ∀ i e, (t.chans i).lock = some e → (s.chans i).lock = some e ∧ e.fiber ≠ f := by
    intro i e hs
    by_cases hi : i = ch
    · rw [hi, upd_self hchan, hlock] at hs
      cases hs
    · rw [upd_other hchan hi] at hs
      exact ⟨hs, fun he => hi (h.holder_unique hsec hs (he.trans hf.symm))⟩
  refine ⟨fun i e hs => ?_, fun i e hs hc => ?_, fun i e c hs hc => ?_, fun g hg => ?_⟩
  · rw [upd_other hfib (hold i e hs).2]
    exact h.holder i e (hold i e hs).1
  · rw [upd_other hfib (hold i e hs).2]
    exact h.caller i e (hold i e hs).1 hc
  · rw [upd_other hfib (hold i e hs).2]
    exact h.atCase i e c (hold i e hs).1 hc
  · by_cases hgf : g = f
    · rw [hgf, upd_self hfib] at hg ⊢
      exact hsel hg
    · rw [upd_other hfib hgf] at hg ⊢
      exact h.selecting g hg

theorem setQueue_lock (c : Chan V) (q : List Waiter) (d : Side) : (c.setQueue q d).lock = c.lock :=
  rfl

theorem setChan_lock {q : List Waiter} (i : ℕ) :
    ((s.setChan ch ((s.chans ch).setQueue q d)).chans i).lock = (s.chans i).lock := by
  by_cases hi : i = ch
  · simp [State.setChan, hi, setQueue_lock]
  · simp [State.setChan, hi]

theorem Locks.step (h : Locks s) (hm : Move s f t) : Locks t := by
  have hsel : (s.fibers f).pc.selecting = true → ∀ pc' : Pc, pc'.selecting = true →
      (s.fibers f).op.isSelect = true := fun hs _ _ => h.selecting f hs
  cases hm with
  | call hpc => exact h.own rfl (fun _ => rfl) (by simp [hpc]) (by rintro ⟨⟩)
  | toScan hpc hop => exact h.own rfl (fun _ => rfl) (by simp [hpc]) fun _ => by rw [hop]; rfl
  | sendClosed hat => exact h.own rfl (fun _ => rfl) hat.pc_ne (by rintro ⟨⟩)
  | enterHand hat hlock hdir | enterGot hat hlock hdir | enterTake hat hlock hdir =>
    refine h.enter rfl rfl rfl rfl hat.pc_ne hat.isSelect fun c hc => ?_
    rw [hat.cases, ← hc, Job.case, ← hdir]
  | enterClose hpc =>
    exact h.enter rfl rfl rfl rfl (by simp [hpc]) (fun hc => absurd rfl hc) (by rintro _ ⟨⟩)
  | retStart hpc | retScan hpc | resumeSend hpc | resumeRecv hpc | finishSend hpc
  | finishRecv hpc => exact h.own rfl (fun _ => rfl) (by simp [hpc]) (by rintro ⟨⟩)
  | tombstone hsec | claimPlain hsec | claimSelect hsec | fillHand hsec | fillGot hsec
  | fillCloseTx hsec | fillCloseRx hsec | wakeClose hsec =>
    exact h.stay hsec rfl rfl rfl ⟨rfl, rfl, rfl⟩
  | closeNext hsec hf hst hjob | fillTake hsec hf hst hjob =>
    exact h.stay hsec rfl rfl rfl ⟨rfl, rfl, by rw [hjob]; rfl⟩
  | bufferSend hsec hf | recvClosed hsec hf | gotDone hsec hf | closeDone hsec hf
  | refuse hsec hf | wakeHand hsec hf | wakeGot hsec hf | parkPlain hsec hf =>
    exact h.leave hsec hf rfl rfl rfl (by rintro ⟨⟩)
  | nextCase hsec hf hst hcaller =>
    refine h.leave hsec hf rfl rfl rfl fun _ => ?_
    rw [← hf]
    exact h.caller _ _ hsec (by simp [hcaller])
  | draw hpc | newPark hpc | installDone hpc | installReady hpc | abortWin hpc | abortLost hpc
  | loadFired hpc | loadNone hpc | evictSkip hpc | evictFired hpc | evictDone hpc =>
    exact h.own rfl (fun _ => rfl) (by simp [hpc]) (hsel (by rw [hpc]; rfl) _)
  | installPush hpc | evictErase hpc =>
    exact h.own rfl setChan_lock (by simp [hpc]) (hsel (by rw [hpc]; rfl) _)
  | evictRetry hpc | finishRetry hpc =>
    obtain hr | hr := retry_cases s f <;> rw [hr]
    · exact h.own rfl (fun _ => rfl) (by simp [hpc]) (by rintro ⟨⟩)
    · exact h.own rfl (fun _ => rfl) (by simp [hpc]) (hsel (by rw [hpc]; rfl) _)

/-! ## What is linked in the queues -/

/-- The owner may still have this record linked. -/
@[grind =]
def Pc.links (pc : Pc) (w : Waiter) : Prop :=
  match pc with
  | .parked => w.select = false ∧ w.case = 0
  | .install i | .abort i => w.select = true ∧ w.case < i
  | .selParked => w.select = true
  | .evict why j => w.select = true ∧ j ≤ w.case ∧ why ≠ .final w.case
  | _ => False

/-- How many cases the install loop has linked. -/
def Pc.installed : Pc → Option ℕ
  | .install i | .abort i => some i
  | _ => none

/-- The record of case `k` in the fiber's current attempt. -/
def State.nameOf (s : State V) (f k : ℕ) : Option Waiter :=
  ((s.fibers f).op.cases[k]?).map (s.waiter f k)

theorem nameOf_eq {k : ℕ} (h : s.nameOf f k = some w) :
    ∃ c, (s.fibers f).op.cases[k]? = some c ∧ w = s.waiter f k c := by
  obtain ⟨c, hc, rfl⟩ := Option.map_eq_some_iff.mp h
  exact ⟨c, hc, rfl⟩

theorem waiter_congr {g : ℕ} (h : t.fibers g = s.fibers g) (k : ℕ) :
    t.waiter g k = s.waiter g k := by
  funext c
  simp only [State.waiter, State.park, h]

theorem nameOf_congr {g : ℕ} (h : t.fibers g = s.fibers g) (k : ℕ) :
    t.nameOf g k = s.nameOf g k := by
  rw [State.nameOf, State.nameOf, waiter_congr h, h]

/-- Only the owner's program counter changed. -/
theorem waiter_goto
    (hfib : t.fibers = fun j => if j = f then { s.fibers f with pc := pc } else s.fibers j)
    (g k : ℕ) : t.waiter g k = s.waiter g k := by
  by_cases hg : g = f
  · funext c
    simp only [State.waiter, State.park, hg, upd_self hfib]
  · exact waiter_congr (upd_other hfib hg) k

theorem nameOf_goto
    (hfib : t.fibers = fun j => if j = f then { s.fibers f with pc := pc } else s.fibers j)
    (g k : ℕ) : t.nameOf g k = s.nameOf g k := by
  rw [State.nameOf, State.nameOf, waiter_goto hfib]
  by_cases hg : g = f
  · rw [hg, upd_self hfib]
  · rw [upd_other hfib hg]

/-- A linked record belongs to the current attempt of a fiber that still waits
in it, and its case is not the one that fired. -/
structure Linked (s : State V) : Prop where
  nodup : ∀ ch d, ((s.chans ch).queue d).Nodup
  home : ∀ (ch : ℕ) (d : Side) (w : Waiter), w ∈ (s.chans ch).queue d → w.ch = ch ∧ w.side = d
  named : ∀ (ch : ℕ) (d : Side) (w : Waiter), w ∈ (s.chans ch).queue d →
    s.nameOf w.park.fiber w.case = some w
  links : ∀ (ch : ℕ) (d : Side) (w : Waiter), w ∈ (s.chans ch).queue d →
    (s.fibers w.park.fiber).pc.links w
  unfired : ∀ (ch : ℕ) (d : Side) (w : Waiter), w ∈ (s.chans ch).queue d →
    w.select = true → s.fired w.park ≠ some w.case
  value : ∀ (ch : ℕ) (w : Waiter), w ∈ (s.chans ch).queue .tx → (s.records w).value.isSome
  range : ∀ (f i k : ℕ), (s.fibers f).pc.installed = some i → s.fired (s.park f) = some k → k < i
  fresh : ∀ (f i k : ℕ) (c : Case V), (s.fibers f).pc = .install i → i ≤ k →
    (s.fibers f).op.cases[k]? = some c → s.records (s.waiter f k c) = c.dir.record

theorem Linked.park_eq (h : Linked s) (hw : w ∈ (s.chans ch).queue d) :
    w.park = s.park w.park.fiber := by
  obtain ⟨c, -, hc⟩ := nameOf_eq (h.named ch d w hw)
  conv_lhs => rw [hc]
  rfl

/-- A fiber that links nothing owns nothing in a queue. -/
theorem Linked.none_of_pc (h : Linked s) (hpc : ∀ w, ¬ (s.fibers f).pc.links w) (i : ℕ) (d : Side)
    (w : Waiter) (hw : w ∈ (s.chans i).queue d) : w.park.fiber ≠ f := by
  rintro rfl
  exact hpc w (h.links i d w hw)

/-- A move of a fiber that owns nothing in a queue. -/
theorem Linked.away (h : Linked s) (hfib : t.fibers = fun j => if j = f then x else s.fibers j)
    (hq : ∀ i d, ((t.chans i).queue d).Sublist ((s.chans i).queue d))
    (hnone : ∀ i d w, w ∈ (s.chans i).queue d → w.park.fiber ≠ f)
    (hfired : ∀ p, p.fiber ≠ f → t.fired p = s.fired p)
    (hrec : ∀ w, w.park.fiber ≠ f → t.records w = s.records w)
    (hrange : ∀ i k, x.pc.installed = some i → t.fired ⟨f, x.call, x.retries⟩ = some k → k < i)
    (hfresh : ∀ i k c, x.pc = .install i → i ≤ k → x.op.cases[k]? = some c →
      t.records (t.waiter f k c) = c.dir.record) : Linked t := by
  refine ⟨fun i d => (h.nodup i d).sublist (hq i d), fun i d w hw => ?_, fun i d w hw => ?_,
    fun i d w hw => ?_, fun i d w hw hs => ?_, fun i w hw => ?_, fun g i k hg hk => ?_,
    fun g i k c hg hk hc => ?_⟩
  · exact h.home i d w ((hq i d).subset hw)
  · have hw := (hq i d).subset hw
    rw [nameOf_congr (upd_other hfib (hnone i d w hw))]
    exact h.named i d w hw
  · have hw := (hq i d).subset hw
    rw [upd_other hfib (hnone i d w hw)]
    exact h.links i d w hw
  · have hw := (hq i d).subset hw
    rw [hfired _ (hnone i d w hw)]
    exact h.unfired i d w hw hs
  · have hw := (hq i .tx).subset hw
    rw [hrec _ (hnone i .tx w hw)]
    exact h.value i w hw
  · by_cases hgf : g = f
    · subst hgf
      simp only [State.park, upd_self hfib] at hg hk
      exact hrange i k hg hk
    · simp only [State.park, upd_other hfib hgf] at hg hk
      rw [hfired _ hgf] at hk
      exact h.range g i k hg hk
  · by_cases hgf : g = f
    · subst hgf
      rw [upd_self hfib] at hg hc
      exact hfresh i k c hg hk hc
    · rw [upd_other hfib hgf] at hg hc
      rw [waiter_congr (upd_other hfib hgf), hrec _ hgf]
      exact h.fresh g i k c hg hk hc

/-- A move inside a section: records may leave the queues. -/
theorem Linked.stay (h : Linked s) (hfib : t.fibers = s.fibers)
    (hq : ∀ i d, ((t.chans i).queue d).Sublist ((s.chans i).queue d))
    (hfired : ∀ i d w, w ∈ (t.chans i).queue d → w.select = true → t.fired w.park ≠ some w.case)
    (hrec : ∀ i w, w ∈ (t.chans i).queue .tx → t.records w = s.records w)
    (hrange : ∀ (g i k : ℕ), (s.fibers g).pc.installed = some i →
      t.fired (s.park g) = some k → k < i)
    (hfresh : ∀ (g i k : ℕ) (c : Case V), (s.fibers g).pc = .install i → i ≤ k →
      (s.fibers g).op.cases[k]? = some c →
      t.records (s.waiter g k c) = s.records (s.waiter g k c)) : Linked t := by
  refine ⟨fun i d => (h.nodup i d).sublist (hq i d), fun i d w hw => ?_, fun i d w hw => ?_,
    fun i d w hw => ?_, hfired, fun i w hw => ?_, fun g i k hg hk => ?_,
    fun g i k c hg hk hc => ?_⟩
  · exact h.home i d w ((hq i d).subset hw)
  · rw [nameOf_congr (congrFun hfib _)]
    exact h.named i d w ((hq i d).subset hw)
  · rw [hfib]
    exact h.links i d w ((hq i d).subset hw)
  · rw [hrec i w hw]
    exact h.value i w ((hq i .tx).subset hw)
  · simp only [State.park, hfib] at hg hk
    exact hrange g i k hg hk
  · rw [hfib] at hg hc
    rw [waiter_congr (congrFun hfib g), hfresh g i k c hg hk hc]
    exact h.fresh g i k c hg hk hc

/-- A fiber moves on within its attempt. -/
theorem Linked.advance (h : Linked s)
    (hfib : t.fibers = fun j => if j = f then { s.fibers f with pc := pc } else s.fibers j)
    (hq : ∀ i d, ((t.chans i).queue d).Sublist ((s.chans i).queue d))
    (hrec : t.records = s.records) (hfired : ∀ p, p ≠ s.park f → t.fired p = s.fired p)
    (hlinks : ∀ i d w, w ∈ (t.chans i).queue d → w.park = s.park f →
      (s.fibers f).pc.links w → pc.links w)
    (hunfired : ∀ i d w, w ∈ (s.chans i).queue d → w.park = s.park f →
      (s.fibers f).pc.links w → w.select = true → t.fired w.park ≠ some w.case)
    (hrange : ∀ i k, pc.installed = some i → t.fired (s.park f) = some k → k < i)
    (hfresh : ∀ i, pc = .install i → ∃ j ≤ i, (s.fibers f).pc = .install j) : Linked t := by
  refine ⟨fun i d => (h.nodup i d).sublist (hq i d), fun i d w hw => ?_, fun i d w hw => ?_,
    fun i d w hw => ?_, fun i d w hw hs => ?_, fun i w hw => ?_, fun g i k hg hk => ?_,
    fun g i k c hg hk hc => ?_⟩
  · exact h.home i d w ((hq i d).subset hw)
  · rw [nameOf_goto hfib]
    exact h.named i d w ((hq i d).subset hw)
  · have hw' := (hq i d).subset hw
    have hpark := h.park_eq hw'
    have hlink := h.links i d w hw'
    by_cases hwf : w.park.fiber = f
    · rw [hwf] at hpark hlink
      rw [hwf, upd_self hfib]
      exact hlinks i d w hw hpark hlink
    · rw [upd_other hfib hwf]
      exact hlink
  · have hw' := (hq i d).subset hw
    have hpark := h.park_eq hw'
    by_cases hwf : w.park.fiber = f
    · have hlink := h.links i d w hw'
      rw [hwf] at hpark hlink
      exact hunfired i d w hw' hpark hlink hs
    · rw [hfired _ fun he => hwf (congrArg Park.fiber he)]
      exact h.unfired i d w hw' hs
  · rw [hrec]
    exact h.value i w ((hq i .tx).subset hw)
  · by_cases hgf : g = f
    · subst hgf
      simp only [State.park, upd_self hfib] at hg hk
      exact hrange i k hg hk
    · simp only [State.park, upd_other hfib hgf] at hg hk
      rw [hfired _ fun he => hgf (congrArg Park.fiber he)] at hk
      exact h.range g i k hg hk
  · rw [waiter_goto hfib, hrec]
    by_cases hgf : g = f
    · subst hgf
      rw [upd_self hfib] at hg hc
      obtain ⟨j, hj, hpc⟩ := hfresh i hg
      exact h.fresh g j k c hpc (Nat.le_trans hj hk) hc
    · rw [upd_other hfib hgf] at hg hc
      exact h.fresh g i k c hg hk hc

/-- One more record is linked. -/
theorem Linked.push (h : Linked s)
    (hfib : t.fibers = s.fibers) (hfired : t.fired = s.fired) (hrec : t.records = s.records)
    (hq : ∀ i d, (t.chans i).queue d =
      if i = w.ch ∧ d = w.side then (s.chans i).queue d ++ [w] else (s.chans i).queue d)
    (hnew : ∀ i d, w ∉ (s.chans i).queue d) (hname : s.nameOf w.park.fiber w.case = some w)
    (hlinks : (s.fibers w.park.fiber).pc.links w)
    (hunfired : w.select = true → s.fired w.park ≠ some w.case)
    (hvalue : w.side = .tx → (s.records w).value.isSome) : Linked t := by
  have hmem : ∀ i d v, v ∈ (t.chans i).queue d →
      v ∈ (s.chans i).queue d ∨ (v = w ∧ i = w.ch ∧ d = w.side) := by
    intro i d v hv
    rw [hq] at hv
    split at hv
    case isTrue hid =>
      rcases List.mem_append.mp hv with hv | hv
      · exact .inl hv
      · exact .inr ⟨List.mem_singleton.mp hv, hid⟩
    case isFalse => exact .inl hv
  refine ⟨fun i d => ?_, fun i d v hv => ?_, fun i d v hv => ?_, fun i d v hv => ?_,
    fun i d v hv hs => ?_, fun i v hv => ?_, fun g i k hg hk => ?_, fun g i k c hg hk hc => ?_⟩
  · rw [hq]
    split
    · rw [(List.perm_append_singleton _ _).nodup_iff, List.nodup_cons]
      exact ⟨hnew i d, h.nodup i d⟩
    · exact h.nodup i d
  · rcases hmem i d v hv with hv | ⟨rfl, rfl, rfl⟩
    · exact h.home i d v hv
    · exact ⟨rfl, rfl⟩
  · rw [nameOf_congr (congrFun hfib _)]
    rcases hmem i d v hv with hv | ⟨rfl, -⟩
    · exact h.named i d v hv
    · exact hname
  · rw [hfib]
    rcases hmem i d v hv with hv | ⟨rfl, -⟩
    · exact h.links i d v hv
    · exact hlinks
  · rw [hfired]
    rcases hmem i d v hv with hv | ⟨rfl, -⟩
    · exact h.unfired i d v hv hs
    · exact hunfired hs
  · rw [hrec]
    rcases hmem i .tx v hv with hv | ⟨rfl, -, hside⟩
    · exact h.value i v hv
    · exact hvalue hside.symm
  · simp only [State.park, hfib, hfired] at hg hk
    exact h.range g i k hg hk
  · rw [hfib] at hg hc
    rw [waiter_congr (congrFun hfib g), hrec]
    exact h.fresh g i k c hg hk hc

/-! ### The queues after a move -/

theorem queue_stay (hchan : t.chans = fun i => if i = ch then c else s.chans i)
    (hq : ∀ d, (c.queue d).Sublist ((s.chans ch).queue d)) (i : ℕ) (d : Side) :
    ((t.chans i).queue d).Sublist ((s.chans i).queue d) := by
  by_cases hi : i = ch
  · rw [hi, upd_self hchan]
    exact hq d
  · rw [upd_other hchan hi]

theorem setQueue_sublist {q : List Waiter} (hq : q.Sublist (c.queue d)) (e : Side) :
    ((c.setQueue q d).queue e).Sublist (c.queue e) := by
  by_cases he : e = d
  · subst he
    cases e <;> exact hq
  · cases d <;> cases e <;> first | exact absurd rfl he | exact List.Sublist.refl _

/-! ## What a section has claimed -/

/-- The records of the current attempt are in use. -/
def Pc.inPark : Pc → Bool
  | .parked | .install _ | .abort _ | .selParked | .evict _ _ | .finish _ => true
  | _ => false

/-- The park is one of a finished attempt, or the current one. -/
def Fiber.past (x : Fiber V) (p : Park) : Prop :=
  p.call < x.call ∨ (p.call = x.call ∧ x.pc ≠ .idle ∧
    (p.attempt < x.retries ∨ (p.attempt = x.retries ∧ x.pc.inPark = true)))

/-- The section under way on `ch` still accesses the record `w`. -/
def Holds (s : State V) (ch : ℕ) (e : Sect V) (w : Waiter) : Prop :=
  (s.chans ch).lock = some e ∧ e.stage.record = some w

/-- A record claimed by a section is out of the queue, and a claimed select has
fired on that case. Its owner may have left the attempt already, unless it is a
plain call, which needs the lock to go on. -/
structure Held (s : State V) : Prop where
  home : ∀ ch e w, Holds s ch e w → w.ch = ch ∧ w.side = e.job.side
  out : ∀ ch e w, Holds s ch e w → w ∉ (s.chans ch).queue w.side
  past : ∀ ch e w, Holds s ch e w → (s.fibers w.park.fiber).past w.park
  fired : ∀ ch e w, Holds s ch e w → w.select = true → s.fired w.park = some w.case
  plain : ∀ ch e w, Holds s ch e w → w.select = false →
    s.nameOf w.park.fiber w.case = some w ∧ (s.fibers w.park.fiber).pc = .parked
  value : ∀ ch e w, Holds s ch e w → e.stage = .claimed w → w.side = .tx →
    (s.records w).value.isSome

theorem Held.not_queued (h : Held s) (hl : Linked s)
    (hw : Holds s ch e w) (i : ℕ) (d : Side) : w ∉ (s.chans i).queue d := by
  intro hmem
  obtain ⟨rfl, rfl⟩ := hl.home i d w hmem
  obtain ⟨rfl, -⟩ := h.home ch e w hw
  exact h.out _ e w hw hmem

/-- A record that is not linked yet is claimed by nobody. -/
theorem Held.not_fresh {g k : ℕ} {c : Case V} (h : Held s)
    (hl : Linked s) (hk : Locks s) (hw : Holds s ch e w) (hpc : (s.fibers g).pc = .install i)
    (hik : i ≤ k) : s.waiter g k c ≠ w := by
  rintro rfl
  have hsel : (s.waiter g k c).select = true := hk.selecting g (by rw [hpc]; rfl)
  have hfired := h.fired ch e _ hw hsel
  have := hl.range g i k (by rw [hpc]; rfl) hfired
  omega

/-! ## The queues stay linked -/

/-- A plain call parks on the channel it has locked. -/
theorem Locks.parkPlain_case {e : Case V} {b : Bool} (h : Locks s)
    (hsec : (s.chans ch).lock = some sec) (hf : sec.fiber = f)
    (hop : (s.fibers f).op = .plain e b) (hcaller : sec.caller = .plain)
    (hjob : (∃ v, sec.job = .hand v ∧ (s.chans ch).receivers = [] ∧
        ((s.chans ch).ring.cap ≤ (s.chans ch).ring.len)) ∨
      (sec.job = .take ∧ (s.chans ch).senders = [] ∧ (s.chans ch).closed = false)) :
    e.ch = ch ∧ ((∃ v, e.dir = .send v ∧ sec.job = .hand v) ∨ (e.dir = .recv ∧ sec.job = .take)) := by
  have hcase : ∀ c, sec.job.case ch = some c → c = e := by
    intro c hc
    have := h.atCase ch sec c hsec hc
    rw [hf, hop, hcaller] at this
    exact (Option.some.inj this).symm
  rcases hjob with ⟨v, hj, -⟩ | ⟨hj, -⟩
  · have := hcase ⟨ch, .send v⟩ (by rw [hj]; rfl)
    subst this
    exact ⟨rfl, .inl ⟨v, rfl, hj⟩⟩
  · have := hcase ⟨ch, .recv⟩ (by rw [hj]; rfl)
    subst this
    exact ⟨rfl, .inr ⟨rfl, hj⟩⟩

theorem AtCase.no_links {c : Case V} (h : AtCase s f caller c) (w : Waiter) :
    ¬ (s.fibers f).pc.links w := by
  cases h with
  | plain hpc _ => simp [hpc, Pc.links]
  | scan hpc _ _ => simp [hpc, Pc.links]

theorem Locks.no_links (h : Locks s) (hsec : (s.chans ch).lock = some sec)
    (hf : sec.fiber = f) (w : Waiter) : ¬ (s.fibers f).pc.links w := by
  rw [← hf, h.holder ch sec hsec]
  exact id

/-- After the last case of an eviction nothing of the park is linked. -/
theorem Linked.none_of_end {why : Evict} {j : ℕ} (h : Linked s)
    (hpc : (s.fibers f).pc = .evict why j) (hcase : (s.fibers f).op.cases[j]? = none) (i : ℕ)
    (d : Side) (w : Waiter) (hw : w ∈ (s.chans i).queue d) : w.park.fiber ≠ f := by
  rintro rfl
  obtain ⟨c, hc, -⟩ := nameOf_eq (h.named i d w hw)
  have hlink := h.links i d w hw
  rw [hpc] at hlink
  have hlt := (List.getElem?_eq_some_iff.mp hc).1
  have hle := List.getElem?_eq_none_iff.mp hcase
  have := hlink.2.1
  omega

/-- A parked plain call has one record. -/
theorem Linked.none_of_parked {c : Case V} {b : Bool} (h : Linked s)
    (hpc : (s.fibers f).pc = .parked) (hop : (s.fibers f).op = .plain c b)
    (hout : s.waiter f 0 c ∉ (s.chans c.ch).queue c.dir.side) (i : ℕ) (d : Side) (w : Waiter)
    (hw : w ∈ (s.chans i).queue d) : w.park.fiber ≠ f := by
  rintro rfl
  obtain ⟨e, he, hwe⟩ := nameOf_eq (h.named i d w hw)
  have hlink := h.links i d w hw
  rw [hpc] at hlink
  rw [hop, hlink.2] at he
  cases he
  rw [hlink.2] at hwe
  obtain ⟨hi, hd⟩ := h.home i d w hw
  rw [hwe] at hi hd
  rw [← hwe] at hout
  apply hout
  rw [show c.ch = i from hi, show c.dir.side = d from hd]
  exact hw

/-- Two linked records of one park and one case are the same. -/
theorem Linked.eq_of_case {e : Side} {v : Waiter} (h : Linked s)
    (hv : v ∈ (s.chans i).queue d) (hw : w ∈ (s.chans ch).queue e) (hp : v.park = w.park)
    (hc : v.case = w.case) : v = w := by
  have h1 := h.named i d v hv
  have h2 := h.named ch e w hw
  rw [hp, hc, h2] at h1
  exact (Option.some.inj h1).symm

theorem Linked.stay_same (h : Linked s) (hfib : t.fibers = s.fibers)
    (hq : ∀ i d, ((t.chans i).queue d).Sublist ((s.chans i).queue d))
    (hfired : t.fired = s.fired) (hrec : t.records = s.records) : Linked t := by
  refine h.stay hfib hq (fun i d w hw hs => ?_) (fun _ _ _ => by rw [hrec])
    (fun g i k hg hk => ?_) (fun _ _ _ _ _ _ _ => by rw [hrec])
  · rw [hfired]
    exact h.unfired i d w ((hq i d).subset hw) hs
  · rw [hfired] at hk
    exact h.range g i k hg hk

theorem Linked.fill {r : Record V} (h : Linked s) (hk : Locks s)
    (hh : Held s) (hsec : (s.chans ch).lock = some sec) (hst : sec.stage = .claimed w)
    (hfib : t.fibers = s.fibers)
    (hq : ∀ i d, ((t.chans i).queue d).Sublist ((s.chans i).queue d))
    (hfired : t.fired = s.fired)
    (hrec : t.records = fun v => if v = w then r else s.records v) : Linked t := by
  have hw : Holds s ch sec w := ⟨hsec, by rw [hst]; rfl⟩
  refine h.stay hfib hq (fun i d v hv hs => ?_) (fun i v hv => ?_) (fun g i k hg hk => ?_)
    (fun g i k c hg hik hc => ?_)
  · rw [hfired]
    exact h.unfired i d v ((hq i d).subset hv) hs
  · have hne : v ≠ w := by
      rintro rfl
      exact hh.not_queued h hw i .tx ((hq i .tx).subset hv)
    simp [hrec, hne]
  · rw [hfired] at hk
    exact h.range g i k hg hk
  · have hne := hh.not_fresh (c := c) h hk hw hg hik
    simp [hrec, hne]

theorem setQueue_queue (c : Chan V) (q : List Waiter) (d : Side) : (c.setQueue q d).queue d = q := by
  cases d <;> rfl

theorem setQueue_queue_ne (c : Chan V) (q : List Waiter) {e : Side} (h : e ≠ d) :
    (c.setQueue q d).queue e = c.queue e := by
  cases d <;> cases e <;> first | exact absurd rfl h | rfl

theorem Pc.links_installed (h : pc.links w)
    (hi : pc.installed = some i) : w.case < i := by
  cases pc with
  | install j | abort j =>
    cases hi
    exact h.2
  | _ => cases hi

/-- The head of a queue is in no queue once it is popped. -/
theorem Linked.popped {rest : List Waiter}
    (h : Linked s) (hw : (s.chans ch).queue d = w :: rest)
    (hchan : t.chans = fun i =>
      if i = ch then { (s.chans ch).setQueue rest d with lock := l } else s.chans i) :
    (∀ i e, ((t.chans i).queue e).Sublist ((s.chans i).queue e)) ∧
      ∀ i e, w ∉ (t.chans i).queue e := by
  have hsub : ∀ i e, ((t.chans i).queue e).Sublist ((s.chans i).queue e) := by
    refine queue_stay hchan fun e => ?_
    exact setQueue_sublist (by rw [hw]; exact List.sublist_cons_self _ _) e
  refine ⟨hsub, fun i e hmem => ?_⟩
  obtain ⟨hi, he⟩ := h.home i e w ((hsub i e).subset hmem)
  obtain ⟨hi', he'⟩ := h.home ch d w (by simp [hw])
  obtain rfl : i = ch := hi.symm.trans hi'
  obtain rfl : e = d := he.symm.trans he'
  rw [upd_self hchan] at hmem
  change w ∈ ((s.chans i).setQueue rest e).queue e at hmem
  rw [setQueue_queue] at hmem
  have hnd := h.nodup i e
  rw [hw, List.nodup_cons] at hnd
  exact hnd.1 hmem

theorem Linked.claim {rest : List Waiter}
    (h : Linked s) (hw : (s.chans ch).queue d = w :: rest)
    (hchan : t.chans = fun i =>
      if i = ch then { (s.chans ch).setQueue rest d with lock := l } else s.chans i)
    (hfib : t.fibers = s.fibers)
    (hfired : t.fired = fun p => if p = w.park then some w.case else s.fired p)
    (hrec : t.records = s.records) : Linked t := by
  have hmem : w ∈ (s.chans ch).queue d := by simp [hw]
  obtain ⟨hsub, hout⟩ := h.popped hw hchan
  refine h.stay hfib hsub (fun i e v hv hs => ?_) (fun _ _ _ => by rw [hrec])
    (fun g i k hg hk => ?_) (fun _ _ _ _ _ _ _ => by rw [hrec])
  · by_cases hp : v.park = w.park
    · -- the other records of the park have other cases, and this one was unlinked
      simp only [hfired, hp, if_true, ne_eq, Option.some.injEq]
      intro hc
      have hvw := h.eq_of_case ((hsub i e).subset hv) hmem hp hc.symm
      exact hout i e (hvw ▸ hv)
    · simp only [hfired, hp, if_false]
      exact h.unfired i e v ((hsub i e).subset hv) hs
  · by_cases hp : s.park g = w.park
    · simp only [hfired, hp, if_true, Option.some.injEq] at hk
      have hlink := h.links ch d w hmem
      rw [← hp] at hlink
      exact hk ▸ Pc.links_installed hlink hg
    · simp only [hfired, hp, if_false] at hk
      exact h.range g i k hg hk

theorem Linked.erased {j : ℕ} {e : Case V} (h : Linked s)
    (hchan : t.chans = fun i => if i = e.ch then
      (s.chans e.ch).setQueue (((s.chans e.ch).queue e.dir.side).erase (s.waiter f j e)) e.dir.side
      else s.chans i) :
    (∀ i d, ((t.chans i).queue d).Sublist ((s.chans i).queue d)) ∧
      ∀ i d, s.waiter f j e ∉ (t.chans i).queue d := by
  have hsub := queue_stay hchan (setQueue_sublist (List.erase_sublist))
  refine ⟨hsub, fun i d hmem => ?_⟩
  obtain ⟨hi, hd⟩ := h.home i d _ ((hsub i d).subset hmem)
  obtain rfl : e.ch = i := hi
  obtain rfl : e.dir.side = d := hd
  rw [upd_self hchan, setQueue_queue] at hmem
  exact (h.nodup _ _).not_mem_erase hmem

theorem Dir.record_value {d : Dir V} (h : d.side = .tx) : d.record.value.isSome := by
  cases d with
  | send v => rfl
  | recv => cases h

theorem queue_push
    (hchan : t.chans = fun i => if i = w.ch then
      { (s.chans w.ch).setQueue ((s.chans w.ch).queue w.side ++ [w]) w.side with lock := l }
      else s.chans i) (i : ℕ) (d : Side) :
    (t.chans i).queue d =
      if i = w.ch ∧ d = w.side then (s.chans i).queue d ++ [w] else (s.chans i).queue d := by
  by_cases hi : i = w.ch
  · rw [hi, upd_self hchan]
    show ((s.chans w.ch).setQueue ((s.chans w.ch).queue w.side ++ [w]) w.side).queue d = _
    by_cases hd : d = w.side
    · rw [hd, setQueue_queue, if_pos ⟨rfl, rfl⟩]
    · rw [if_neg fun he => hd he.2, setQueue_queue_ne _ _ hd]
  · rw [upd_other hchan hi, if_neg fun he => hi he.1]

theorem queue_relock
    (hchan : t.chans = fun i => if i = ch then { s.chans ch with lock := l } else s.chans i)
    (i : ℕ) (d : Side) : (t.chans i).queue d = (s.chans i).queue d := by
  by_cases hi : i = ch
  · rw [hi, upd_self hchan]
    rfl
  · rw [upd_other hchan hi]

theorem newPark_records {cs : List (Case V)} {k : ℕ} {e : Case V} (hc : cs[k]? = some e) :
    (s.newPark f cs).records (s.waiter f k e) = e.dir.record := by
  simp [State.newPark, State.waiter, hc]

theorem Linked.step (h : Linked s) (hk : Locks s) (hh : Held s) (hm : Move s f t) : Linked t := by
  have hsame : ∀ (i : ℕ) (d : Side), ((s.chans i).queue d).Sublist ((s.chans i).queue d) :=
    fun _ _ => List.Sublist.refl _
  cases hm with
  | call hpc | toScan hpc | draw hpc | retStart hpc | retScan hpc | finishSend hpc
  | finishRecv hpc =>
    exact h.away rfl hsame (h.none_of_pc (by simp [hpc, Pc.links])) (fun _ _ => rfl)
      (fun _ _ => rfl) (by rintro _ _ ⟨⟩) (by rintro _ _ _ ⟨⟩)
  | sendClosed hat =>
    exact h.away rfl hsame (h.none_of_pc hat.no_links) (fun _ _ => rfl) (fun _ _ => rfl) (by rintro _ _ ⟨⟩) (by rintro _ _ _ ⟨⟩)
  | enterHand hat | enterGot hat | enterTake hat =>
    exact h.away rfl (queue_stay rfl fun _ => List.Sublist.refl _) (h.none_of_pc hat.no_links)
      (fun _ _ => rfl) (fun _ _ => rfl) (by rintro _ _ ⟨⟩) (by rintro _ _ _ ⟨⟩)
  | enterClose hpc =>
    exact h.away rfl (queue_stay rfl fun _ => List.Sublist.refl _)
      (h.none_of_pc (by simp [hpc, Pc.links])) (fun _ _ => rfl) (fun _ _ => rfl) (by rintro _ _ ⟨⟩) (by rintro _ _ _ ⟨⟩)
  | @newPark stride k i cs d hpc hop =>
    have hne : ∀ p : Park, p.fiber ≠ f → p ≠ s.park f := fun p hp he => hp (congrArg Park.fiber he)
    refine h.away rfl hsame (h.none_of_pc (by simp [hpc, Pc.links])) (fun p hp => if_neg (hne p hp))
      (fun w hw => ?_) (fun i k _ hk => ?_) (fun i k c _ _ hc => ?_)
    · simp only [State.newPark, State.goto, State.setFiber, hne _ hw, if_false]
      split <;> rfl
    · simp [State.newPark, State.goto, State.setFiber, State.setFired, State.park] at hk
    · change (s.fibers f).op.cases[k]? = some c at hc
      rw [hop] at hc
      rw [waiter_goto (s := s) rfl]
      exact newPark_records hc
  | tombstone hsec hf hst hq =>
    exact h.stay_same rfl (h.popped hq rfl).1 rfl rfl
  | claimPlain hsec hf hst hq =>
    exact h.stay_same rfl (h.popped hq rfl).1 rfl rfl
  | claimSelect hsec hf hst hq =>
    exact h.claim hq rfl rfl rfl rfl
  | closeNext hsec | wakeClose hsec =>
    exact h.stay_same rfl (queue_stay rfl fun _ => List.Sublist.refl _) rfl rfl
  | fillHand hsec hf hst | fillTake hsec hf hst | fillGot hsec hf hst | fillCloseTx hsec hf hst
  | fillCloseRx hsec hf hst =>
    exact h.fill hk hh hsec hst rfl (queue_stay rfl fun _ => List.Sublist.refl _) rfl rfl
  | bufferSend hsec hf | recvClosed hsec hf | gotDone hsec hf | closeDone hsec hf
  | refuse hsec hf | wakeHand hsec hf | wakeGot hsec hf | nextCase hsec hf =>
    exact h.away rfl (queue_stay rfl fun _ => List.Sublist.refl _)
      (h.none_of_pc (hk.no_links hsec hf)) (fun _ _ => rfl) (fun _ _ => rfl) (by rintro _ _ ⟨⟩) (by rintro _ _ _ ⟨⟩)
  | @parkPlain ch sec e b hsec hf hst hop hcaller hjob =>
    obtain ⟨rfl, -⟩ := hk.parkPlain_case hsec hf hop hcaller hjob
    have hnone := h.none_of_pc (hk.no_links hsec hf)
    have h1 : Linked (((s.setRecord (s.waiter f 0 e) e.dir.record).unlock e.ch
        (s.chans e.ch)).goto f .parked) := by
      refine h.away rfl (queue_stay rfl fun _ => List.Sublist.refl _) hnone (fun _ _ => rfl)
        (fun w hw => if_neg fun he => hw ?_) (by rintro _ _ ⟨⟩) (by rintro _ _ _ ⟨⟩)
      rw [he]
      rfl
    have hq : ∀ i d, ((((s.setRecord (s.waiter f 0 e) e.dir.record).unlock e.ch
        (s.chans e.ch)).goto f .parked).chans i).queue d = (s.chans i).queue d :=
      queue_relock rfl
    refine h1.push (w := s.waiter f 0 e) rfl rfl rfl ?_ (fun i d hmem => ?_) ?_ ?_ ?_ ?_
    · intro i d
      rw [hq]
      exact queue_push (s := s) (w := s.waiter f 0 e) (l := none) rfl i d
    · rw [hq] at hmem
      exact hnone i d _ hmem rfl
    · rw [nameOf_goto (s := s) rfl]
      show ((s.fibers f).op.cases[0]?).map (s.waiter f 0) = some (s.waiter f 0 e)
      rw [hop]
      rfl
    · show Pc.links (State.fibers _ f).pc _
      rw [goto_pc]
      exact ⟨by rw [State.waiter, hop]; rfl, rfl⟩
    · intro hsel
      rw [State.waiter, hop] at hsel
      cases hsel
    · intro hside
      show (if s.waiter f 0 e = s.waiter f 0 e then e.dir.record else _).value.isSome = true
      rw [if_pos rfl]
      exact Dir.record_value hside
  | resumeSend hpc hop hdir hlock hout | resumeRecv hpc hop hdir hlock hout =>
    exact h.away rfl hsame (h.none_of_parked hpc hop hout) (fun _ _ => rfl) (fun _ _ => rfl)
      (by intros; contradiction) (by intros; contradiction)
  | installDone hpc =>
    exact h.advance rfl hsame rfl (fun _ _ => rfl) (fun i d w _ _ hl => by
      rw [hpc] at hl; exact hl.1) (fun i d w hw _ _ => h.unfired i d w hw) (by intros; contradiction) (by intros; contradiction)
  | @installReady i hpc =>
    exact h.advance rfl hsame rfl (fun _ _ => rfl) (fun i d w _ _ hl => by
      rw [hpc] at hl; exact hl) (fun i d w hw _ _ => h.unfired i d w hw)
      (fun j k hj hk => h.range f j k (by rw [hpc]; exact hj) hk) (by intros; contradiction)
  | @installPush i e hpc hcase hlock hready =>
    have hsel : (s.waiter f i e).select = true := hk.selecting f (by rw [hpc]; rfl)
    have h1 : Linked (s.goto f (.install (i + 1))) := by
      refine h.advance rfl hsame rfl (fun _ _ => rfl) (fun j d w _ _ hl => ?_)
        (fun j d w hw _ _ => h.unfired j d w hw) (fun j k hj hk => ?_) (fun j hj => ?_)
      · rw [hpc] at hl
        exact ⟨hl.1, Nat.lt_succ_of_lt hl.2⟩
      · cases hj
        exact Nat.lt_succ_of_lt (h.range f i k (by rw [hpc]; rfl) hk)
      · cases hj
        exact ⟨i, Nat.le_succ i, hpc⟩
    refine h1.push (w := s.waiter f i e) rfl rfl rfl ?_ (fun j d hmem => ?_) ?_ ?_ (fun _ hfired => ?_)
      (fun hside => ?_)
    · exact queue_push (s := s) (w := s.waiter f i e) (l := (s.chans e.ch).lock) rfl
    · have hl := h.links j d _ hmem
      change (s.fibers f).pc.links _ at hl
      rw [hpc] at hl
      exact Nat.lt_irrefl _ hl.2
    · rw [nameOf_goto (s := s) rfl]
      show ((s.fibers f).op.cases[i]?).map (s.waiter f i) = some (s.waiter f i e)
      rw [hcase]
      rfl
    · show Pc.links (State.fibers _ f).pc _
      rw [goto_pc]
      exact ⟨hsel, Nat.lt_succ_self i⟩
    · exact Nat.lt_irrefl _ (h.range f i i (by rw [hpc]; rfl) hfired)
    · show (s.records (s.waiter f i e)).value.isSome = true
      rw [h.fresh f i i e hpc (Nat.le_refl i) hcase]
      exact Dir.record_value hside
  | @abortWin i hpc hfired =>
    refine h.advance rfl hsame rfl (fun p hp => if_neg hp) (fun j d w _ _ hl => ?_)
      (fun j d w hw hp hl _ => ?_) (by intros; contradiction) (by intros; contradiction)
    · rw [hpc] at hl
      exact ⟨hl.1, Nat.zero_le _, nofun⟩
    · rw [hpc] at hl
      show (if w.park = s.park f then some i else s.fired w.park) ≠ some w.case
      rw [if_pos hp]
      exact fun he => Nat.ne_of_gt hl.2 (Option.some.inj he)
  | abortLost hpc =>
    exact h.advance rfl hsame rfl (fun _ _ => rfl) (fun i d w _ _ hl => by
      rw [hpc] at hl; exact hl.1) (fun i d w hw _ _ => h.unfired i d w hw) (by intros; contradiction) (by intros; contradiction)
  | @loadFired k hpc hfired =>
    refine h.advance rfl hsame rfl (fun _ _ => rfl) (fun i d w hw hp hl => ?_)
      (fun i d w hw _ _ => h.unfired i d w hw) (by intros; contradiction) (by intros; contradiction)
    rw [hpc] at hl
    refine ⟨hl, Nat.zero_le _, fun he => ?_⟩
    have := h.unfired i d w hw hl
    rw [hp, hfired] at this
    exact this (congrArg some (Evict.final.inj he))
  | loadNone hpc =>
    exact h.advance rfl hsame rfl (fun _ _ => rfl) (fun i d w _ _ hl => by
      rw [hpc] at hl; exact ⟨hl, Nat.zero_le _, nofun⟩)
      (fun i d w hw _ _ => h.unfired i d w hw) nofun nofun
  | @evictSkip j hpc =>
    refine h.advance rfl hsame rfl (fun _ _ => rfl) (fun i d w _ _ hl => ?_)
      (fun i d w hw _ _ => h.unfired i d w hw) (by intros; contradiction) (by intros; contradiction)
    rw [hpc] at hl
    refine ⟨hl.1, Nat.lt_of_le_of_ne hl.2.1 fun he => hl.2.2 ?_, hl.2.2⟩
    rw [he]
  | @evictErase why j c hpc hcase hwhy hlock =>
    obtain ⟨hsub, hout⟩ := h.erased (t := ((s.setChan c.ch _).goto f _)) rfl
    refine h.advance rfl hsub rfl (fun _ _ => rfl) (fun i d w hw hp hl => ?_)
      (fun i d w hw _ _ => h.unfired i d w hw) (by intros; contradiction) (by intros; contradiction)
    rw [hpc] at hl
    refine ⟨hl.1, Nat.lt_of_le_of_ne hl.2.1 fun he => hout i d ?_, hl.2.2⟩
    obtain ⟨e, hce, hwe⟩ := nameOf_eq (h.named i d w ((hsub i d).subset hw))
    have hfib : w.park.fiber = f := congrArg Park.fiber hp
    rw [hfib, ← he, hcase] at hce
    cases hce
    rw [hfib, ← he] at hwe
    exact hwe ▸ hw
  | evictRetry hpc hcase =>
    have hnone := h.none_of_end hpc hcase
    obtain hr | hr := retry_cases s f <;> rw [hr] <;>
      exact h.away rfl hsame hnone (fun _ _ => rfl) (fun _ _ => rfl) (by intros; contradiction) (by intros; contradiction)
  | evictFired hpc hcase | evictDone hpc hcase =>
    exact h.away rfl hsame (h.none_of_end hpc hcase) (fun _ _ => rfl) (fun _ _ => rfl) (by intros; contradiction) (by intros; contradiction)
  | finishRetry hpc =>
    have hnone := h.none_of_pc (f := f) (by simp [hpc, Pc.links])
    obtain hr | hr := retry_cases s f <;> rw [hr] <;>
      exact h.away rfl hsame hnone (fun _ _ => rfl) (fun _ _ => rfl) (by intros; contradiction) (by intros; contradiction)

/-! ## Claimed records stay out -/

section Past

variable {p : Park}

theorem Fiber.past_goto {pc : Pc} (h : x.past p) (hidle : pc ≠ .idle)
    (hpark : x.pc.inPark = true → pc.inPark = true) : { x with pc := pc : Fiber V }.past p := by
  rcases h with h | ⟨hc, -, h | ⟨ha, hin⟩⟩
  · exact .inl h
  · exact .inr ⟨hc, hidle, .inl h⟩
  · exact .inr ⟨hc, hidle, .inr ⟨ha, hpark hin⟩⟩

theorem Fiber.past_ret (h : x.past p) :
    { x with call := x.call + 1, pc := .idle : Fiber V }.past p := by
  refine .inl ?_
  rcases h with h | ⟨hc, -⟩
  · exact Nat.lt_succ_of_lt h
  · exact hc ▸ Nat.lt_succ_self _

theorem Fiber.past_retry (h : x.past p) :
    { x with retries := x.retries + 1, pc := .scan : Fiber V }.past p := by
  rcases h with h | ⟨hc, -, h | ⟨ha, -⟩⟩
  · exact .inl h
  · exact .inr ⟨hc, by rintro ⟨⟩, .inl (Nat.lt_succ_of_lt h)⟩
  · exact .inr ⟨hc, by rintro ⟨⟩, .inl (ha ▸ Nat.lt_succ_self _)⟩

theorem Fiber.past_call {op : Op V} (h : x.past p) (hpc : x.pc = .idle) :
    { x with op := op, retries := 0, pc := .start : Fiber V }.past p := by
  rcases h with h | ⟨-, hne, -⟩
  · exact .inl h
  · exact absurd hpc hne

/-- The park that a fiber is about to enter is not one it has been in. -/
theorem Fiber.past_ne (h : (s.fibers f).past p) (hpc : (s.fibers f).pc.inPark = false) :
    p ≠ s.park f := by
  rintro rfl
  rcases h with h | ⟨-, -, h | ⟨-, hin⟩⟩
  · exact Nat.lt_irrefl _ h
  · exact Nat.lt_irrefl _ h
  · rw [hpc] at hin
    cases hin

end Past

/-- No record is newly claimed. -/
theorem Held.frame (h : Held s)
    (hheld : ∀ i e w, Holds t i e w → ∃ e', Holds s i e' w ∧ e.job.side = e'.job.side ∧
      (e.stage = .claimed w → e'.stage = .claimed w))
    (hout : ∀ i e w, Holds s i e w → w ∉ (t.chans i).queue w.side)
    (hpast : ∀ g p, (s.fibers g).past p → (t.fibers g).past p)
    (hfired : ∀ i e w, Holds s i e w → s.fired w.park = some w.case →
      t.fired w.park = some w.case)
    (hplain : ∀ g, (s.fibers g).pc = .parked → (∃ i e w, Holds s i e w ∧ w.select = false ∧
      w.park.fiber = g) → t.fibers g = s.fibers g)
    (hrec : ∀ i e w, Holds t i e w → e.stage = .claimed w → t.records w = s.records w) :
    Held t := by
  refine ⟨fun i e w hw => ?_, fun i e w hw => ?_, fun i e w hw => ?_, fun i e w hw hs => ?_,
    fun i e w hw hs => ?_, fun i e w hw hst hside => ?_⟩ <;>
    obtain ⟨e', hw', hjob, hst'⟩ := hheld i e w hw
  · rw [hjob]
    exact h.home i e' w hw'
  · exact hout i e' w hw'
  · exact hpast _ _ (h.past i e' w hw')
  · exact hfired i e' w hw' (h.fired i e' w hw' hs)
  · obtain ⟨hname, hpc⟩ := h.plain i e' w hw' hs
    have hsame := hplain _ hpc ⟨i, e', w, hw', hs, rfl⟩
    rw [nameOf_congr hsame, hsame]
    exact ⟨hname, hpc⟩
  · rw [hrec i e w hw hst]
    exact h.value i e' w hw' (hst' hst) hside

theorem past_upd (hfib : t.fibers = fun j => if j = f then x else s.fibers j)
    (hx : ∀ p, (s.fibers f).past p → x.past p) (g : ℕ) (p : Park) (h : (s.fibers g).past p) :
    (t.fibers g).past p := by
  by_cases hg : g = f
  · subst hg
    rw [upd_self hfib]
    exact hx p h
  · rw [upd_other hfib hg]
    exact h

/-- A move of a fiber outside every section, with the queues left alone. -/
theorem Held.own (h : Held s) (hfib : t.fibers = fun j => if j = f then x else s.fibers j)
    (hchan : t.chans = s.chans) (hfired : t.fired = s.fired) (hrec : t.records = s.records)
    (hpc : (s.fibers f).pc ≠ .parked) (hx : ∀ p, (s.fibers f).past p → x.past p) : Held t := by
  refine h.frame (fun i e w hw => ⟨e, ?_, rfl, id⟩) (fun i e w hw => ?_) (past_upd hfib hx)
    (fun i e w _ hf => by rw [hfired]; exact hf) (fun g hg _ => upd_other hfib ?_)
    (fun i e w _ _ => by rw [hrec])
  · rw [Holds, hchan] at hw
    exact hw
  · rw [hchan]
    exact h.out i e w hw
  · rintro rfl
    exact hpc hg

theorem free_lock {c : Chan V} (h : c.lock = none) {P : Sect V → Prop} :
    ∀ e, c.lock = some e → P e := by
  intro e he
  rw [h] at he
  cases he

/-- A section starts, goes on without a claimed record, or ends. -/
theorem Held.unclaimed (h : Held s) (hchan : t.chans = fun i => if i = ch then c else s.chans i)
    (hfired : t.fired = s.fired) (hrec : t.records = s.records)
    (hlock : ∀ e, c.lock = some e → e.stage.record = none)
    (hq : ∀ d, (c.queue d).Sublist ((s.chans ch).queue d))
    (hpast : ∀ g p, (s.fibers g).past p → (t.fibers g).past p)
    (hplain : ∀ g, (s.fibers g).pc = .parked → t.fibers g = s.fibers g) : Held t := by
  refine h.frame (fun i e w hw => ⟨e, ?_, rfl, id⟩) (fun i e w hw hmem => ?_) hpast
    (fun i e w _ hf => by rw [hfired]; exact hf) (fun g hg _ => hplain g hg)
    (fun i e w _ _ => by rw [hrec])
  · by_cases hi : i = ch
    · rw [Holds, hi, upd_self hchan] at hw
      rw [hlock e hw.1] at hw
      cases hw.2
    · rw [Holds, upd_other hchan hi] at hw
      exact hw
  · exact h.out i e w hw ((queue_stay hchan hq i _).subset hmem)

theorem parked_upd (hfib : t.fibers = fun j => if j = f then x else s.fibers j)
    (hpc : (s.fibers f).pc ≠ .parked) (g : ℕ) (hg : (s.fibers g).pc = .parked) :
    t.fibers g = s.fibers g := by
  refine upd_other hfib ?_
  rintro rfl
  exact hpc hg

/-- The claimed record is filled in. -/
theorem Held.fill {e' : Sect V} {r : Record V} (h : Held s)
    (hw : Holds s ch sec w) (hchan : t.chans = fun i => if i = ch then c else s.chans i)
    (hlock : c.lock = some e') (hst : e'.stage = .waking w) (hside : e'.job.side = sec.job.side)
    (hq : ∀ d, c.queue d = (s.chans ch).queue d) (hfib : t.fibers = s.fibers)
    (hfired : t.fired = s.fired)
    (hrec : t.records = fun v => if v = w then r else s.records v) : Held t := by
  have hold : ∀ i e v, Holds t i e v → (i = ch ∧ e = e' ∧ v = w) ∨ (i ≠ ch ∧ Holds s i e v) := by
    intro i e v hv
    by_cases hi : i = ch
    · rw [Holds, hi, upd_self hchan, hlock] at hv
      obtain ⟨he, hrec⟩ := hv
      cases he
      rw [hst] at hrec
      exact .inl ⟨hi, rfl, (Option.some.inj hrec).symm⟩
    · rw [Holds, upd_other hchan hi] at hv
      exact .inr ⟨hi, hv⟩
  refine h.frame (fun i e v hv => ?_) (fun i e v hv hmem => ?_) (fun g p hp => by rw [hfib]; exact hp)
    (fun i e v _ hf => by rw [hfired]; exact hf) (fun g _ _ => by rw [hfib])
    (fun i e v hv hcl => ?_)
  · rcases hold i e v hv with ⟨rfl, rfl, rfl⟩ | ⟨-, hv⟩
    · exact ⟨sec, hw, hside, fun hcl => by rw [hst] at hcl; cases hcl⟩
    · exact ⟨e, hv, rfl, id⟩
  · refine h.out i e v hv ?_
    by_cases hi : i = ch
    · rw [hi, upd_self hchan, hq] at hmem
      exact hi ▸ hmem
    · rwa [upd_other hchan hi] at hmem
  · rcases hold i e v hv with ⟨rfl, rfl, rfl⟩ | ⟨hi, hv⟩
    · rw [hst] at hcl
      cases hcl
    · have hne : v ≠ w := by
        rintro rfl
        exact hi ((h.home i e v hv).1.symm.trans (h.home ch sec v hw).1)
      simp [hrec, hne]

theorem Pc.links_inPark (h : pc.links w) : pc ≠ .idle ∧ pc.inPark = true := by
  cases pc <;> first | exact ⟨by rintro ⟨⟩, rfl⟩ | exact absurd h id

theorem Pc.links_plain (h : pc.links w) (hs : w.select = false) :
    pc = .parked := by
  cases pc with
  | parked => rfl
  | install | abort | evict =>
    rw [h.1] at hs
    cases hs
  | selParked =>
    rw [show w.select = true from h] at hs
    cases hs
  | _ => exact absurd h id

/-- The head of a queue is claimed. -/
theorem Held.claim {rest : List Waiter} (h : Held s) (hl : Linked s)
    (hsec : (s.chans ch).lock = some sec) (hw : (s.chans ch).queue sec.job.side = w :: rest)
    (hchan : t.chans = fun i => if i = ch then
      { (s.chans ch).setQueue rest sec.job.side with
        lock := some { sec with stage := .claimed w } } else s.chans i)
    (hfib : t.fibers = s.fibers) (hrec : t.records = s.records)
    (hfired : ∀ p k, s.fired p = some k → t.fired p = some k)
    (hclaim : w.select = true → t.fired w.park = some w.case) : Held t := by
  have hmem : w ∈ (s.chans ch).queue sec.job.side := by simp [hw]
  obtain ⟨hsub, hout⟩ := hl.popped hw hchan
  have hlink := hl.links ch _ w hmem
  have hold : ∀ i e v, Holds t i e v →
      (i = ch ∧ e = { sec with stage := .claimed w } ∧ v = w) ∨ (i ≠ ch ∧ Holds s i e v) := by
    intro i e v hv
    by_cases hi : i = ch
    · rw [Holds, hi, upd_self hchan] at hv
      obtain ⟨he, hrec⟩ := hv
      cases he
      exact .inl ⟨hi, rfl, (Option.some.inj hrec).symm⟩
    · rw [Holds, upd_other hchan hi] at hv
      exact .inr ⟨hi, hv⟩
  refine ⟨fun i e v hv => ?_, fun i e v hv hm => ?_, fun i e v hv => ?_, fun i e v hv hs => ?_,
    fun i e v hv hs => ?_, fun i e v hv hst hside => ?_⟩ <;>
    rcases hold i e v hv with ⟨rfl, rfl, rfl⟩ | ⟨-, hv⟩
  · exact hl.home i _ v hmem
  · exact h.home i e v hv
  · exact hout i _ hm
  · exact h.out i e v hv ((hsub i _).subset hm)
  · rw [hfib]
    have hpark := hl.park_eq hmem
    refine .inr ⟨congrArg Park.call hpark, (Pc.links_inPark hlink).1,
      .inr ⟨?_, (Pc.links_inPark hlink).2⟩⟩
    exact congrArg Park.attempt hpark
  · rw [hfib]
    exact h.past i e v hv
  · exact hclaim hs
  · exact hfired _ _ (h.fired i e v hv hs)
  · rw [nameOf_congr (congrFun hfib _), hfib]
    exact ⟨hl.named i _ v hmem, Pc.links_plain hlink hs⟩
  · rw [nameOf_congr (congrFun hfib _), hfib]
    exact h.plain i e v hv hs
  · rw [hrec]
    have hside' := (hl.home i _ v hmem).2
    rw [hside] at hside'
    rw [← hside'] at hmem
    exact hl.value i v hmem
  · rw [hrec]
    exact h.value i e v hv hst hside

/-- A plain call whose channel is unlocked is claimed by nobody. -/
theorem Held.none_of_parked {e : Case V} {b : Bool} (h : Held s)
    (hop : (s.fibers f).op = .plain e b) (hlock : (s.chans e.ch).lock = none) :
    ¬ ∃ i e w, Holds s i e w ∧ w.select = false ∧ w.park.fiber = f := by
  rintro ⟨i, sec, w, hw, hs, rfl⟩
  obtain ⟨c, hc, hwc⟩ := nameOf_eq (h.plain i sec w hw hs).1
  have hi : c.ch = i := by
    have := (h.home i sec w hw).1
    rwa [hwc] at this
  have hce : c = e := by
    rw [hop] at hc
    exact (List.mem_singleton.mp (List.mem_of_getElem? hc))
  rw [hce] at hi
  rw [Holds, ← hi, hlock] at hw
  cases hw.1

/-- A record of a park that the fiber is not in yet is claimed by nobody. -/
theorem Held.park_ne (h : Held s) (hw : Holds s i e w)
    (hpc : (s.fibers f).pc.inPark = false) : w.park ≠ s.park f := by
  intro he
  have hp := h.past i e w hw
  have hf : w.park.fiber = f := congrArg Park.fiber he
  rw [hf] at hp
  exact Fiber.past_ne hp hpc he

/-- A fiber links or unlinks records of its own, those in `N`. -/
theorem Held.link {N : Waiter → Prop} (h : Held s)
    (hfib : t.fibers = fun j => if j = f then x else s.fibers j)
    (hchan : t.chans = fun i => if i = ch then c else s.chans i)
    (hlock : ∀ e, c.lock = some e → (s.chans ch).lock = some e)
    (hq : ∀ d w, w ∈ c.queue d → w ∈ (s.chans ch).queue d ∨ N w)
    (hN : ∀ i e w, Holds s i e w → ¬ N w) (hfired : t.fired = s.fired)
    (hrec : ∀ w, ¬ N w → t.records w = s.records w) (hpc : (s.fibers f).pc ≠ .parked)
    (hx : ∀ p, (s.fibers f).past p → x.past p) : Held t := by
  have hheld : ∀ i e w, Holds t i e w → Holds s i e w := by
    intro i e w hw
    by_cases hi : i = ch
    · rw [Holds, hi, upd_self hchan] at hw
      exact hi ▸ ⟨hlock e hw.1, hw.2⟩
    · rw [Holds, upd_other hchan hi] at hw
      exact hw
  refine h.frame (fun i e w hw => ⟨e, hheld i e w hw, rfl, id⟩) (fun i e w hw hmem => ?_)
    (past_upd hfib hx) (fun _ _ _ _ hf => by rw [hfired]; exact hf)
    (fun g hg _ => parked_upd hfib hpc g hg)
    (fun i e w hw _ => hrec w (hN i e w (hheld i e w hw)))
  by_cases hi : i = ch
  · rw [hi, upd_self hchan] at hmem
    rcases hq _ w hmem with hmem | hmem
    · exact h.out i e w hw (hi ▸ hmem)
    · exact hN i e w hw hmem
  · rw [upd_other hchan hi] at hmem
    exact h.out i e w hw hmem

theorem mem_setQueue_push {v : Waiter} {e : Side}
    (h : w ∈ (c.setQueue (c.queue d ++ [v]) d).queue e) : w ∈ c.queue e ∨ w = v := by
  by_cases he : e = d
  · rw [he, setQueue_queue, List.mem_append, List.mem_singleton] at h
    exact he ▸ h
  · rw [setQueue_queue_ne _ _ he] at h
    exact .inl h

theorem Held.step (h : Held s) (hk : Locks s) (hl : Linked s) (hm : Move s f t) : Held t := by
  have hret : ∀ p, (s.fibers f).past p →
      { s.fibers f with call := (s.fibers f).call + 1, pc := .idle : Fiber V }.past p :=
    fun p hp => Fiber.past_ret hp
  have hout : (s.fibers f).pc.inPark = false → ∀ pc : Pc, pc ≠ .idle → ∀ p,
      (s.fibers f).past p → { s.fibers f with pc := pc : Fiber V }.past p :=
    fun hin pc hne p hp => Fiber.past_goto hp hne (by rw [hin]; rintro ⟨⟩)
  have hin : ∀ pc : Pc, pc ≠ .idle → pc.inPark = true → ∀ p,
      (s.fibers f).past p → { s.fibers f with pc := pc : Fiber V }.past p :=
    fun pc hne hin p hp => Fiber.past_goto hp hne fun _ => hin
  cases hm with
  | call hpc => exact h.own rfl rfl rfl rfl (by simp [hpc]) fun p hp => Fiber.past_call hp hpc
  | toScan hpc | draw hpc =>
    exact h.own rfl rfl rfl rfl (by simp [hpc]) (hout (by rw [hpc]; rfl) _ (by rintro ⟨⟩))
  | sendClosed hat =>
    refine h.own rfl rfl rfl rfl ?_ hret
    rcases hat with ⟨hpc, -⟩ | ⟨hpc, -, -⟩ <;> simp [hpc]
  | enterHand hat | enterGot hat | enterTake hat =>
    have hpc : (s.fibers f).pc ≠ .parked ∧ (s.fibers f).pc.inPark = false := by
      rcases hat with ⟨hpc, -⟩ | ⟨hpc, -, -⟩ <;> simp [hpc, Pc.inPark]
    exact h.unclaimed rfl rfl rfl (fun e he => by cases he; rfl) (fun _ => List.Sublist.refl _)
      (past_upd rfl (hout hpc.2 _ (by rintro ⟨⟩))) (parked_upd rfl hpc.1)
  | enterClose hpc =>
    exact h.unclaimed rfl rfl rfl (fun e he => by cases he; rfl) (fun _ => List.Sublist.refl _)
      (past_upd rfl (hout (by rw [hpc]; rfl) _ (by rintro ⟨⟩)))
      (parked_upd rfl (by simp [hpc]))
  | retStart hpc | retScan hpc | finishSend hpc | finishRecv hpc =>
    exact h.own rfl rfl rfl rfl (by simp [hpc]) hret
  | @newPark stride k i cs d hpc hop =>
    have hne : ∀ i e w, Holds s i e w → w.park ≠ s.park f :=
      fun i e w hw => h.park_ne hw (by rw [hpc]; rfl)
    refine h.frame (fun i e w hw => ⟨e, hw, rfl, id⟩) h.out
      (past_upd rfl (hin _ (by rintro ⟨⟩) rfl))
      (fun i e w hw hf => ?_) (fun g hg _ => parked_upd rfl (by simp [hpc]) g hg)
      (fun i e w hw _ => ?_)
    · show (if w.park = s.park f then none else s.fired w.park) = some w.case
      rw [if_neg (hne i e w hw)]
      exact hf
    · simp only [State.newPark, State.goto, State.setFiber, hne i e w hw, if_false]
      split <;> rfl
  | tombstone hsec hf hst hq =>
    refine h.unclaimed rfl rfl rfl (fun e he => by cases he; rw [hst]; rfl) (fun d => ?_)
      (fun _ _ hp => hp) fun _ _ => rfl
    exact setQueue_sublist (by rw [hq]; exact List.sublist_cons_self _ _) d
  | claimPlain hsec hf hst hq hsel =>
    exact h.claim hl hsec hq rfl rfl rfl (fun _ _ hk => hk) (by simp [hsel])
  | claimSelect hsec hf hst hq hsel hfired =>
    refine h.claim hl hsec hq rfl rfl rfl (fun p k hk => ?_) fun _ => if_pos rfl
    refine (if_neg ?_).trans hk
    rintro rfl
    rw [hfired] at hk
    cases hk
  | closeNext hsec hf hst =>
    exact h.unclaimed rfl rfl rfl (fun e he => by cases he; rw [hst]; rfl)
      (fun _ => List.Sublist.refl _) (fun _ _ hp => hp) fun _ _ => rfl
  | wakeClose hsec =>
    exact h.unclaimed rfl rfl rfl (fun e he => by cases he; rfl)
      (fun _ => List.Sublist.refl _) (fun _ _ hp => hp) fun _ _ => rfl
  | fillHand hsec hf hst | fillGot hsec hf hst | fillCloseTx hsec hf hst
  | fillCloseRx hsec hf hst =>
    exact h.fill ⟨hsec, by rw [hst]; rfl⟩ rfl rfl rfl rfl (fun _ => rfl) rfl rfl rfl
  | fillTake hsec hf hst hjob =>
    exact h.fill ⟨hsec, by rw [hst]; rfl⟩ rfl rfl rfl (by rw [hjob]; rfl) (fun _ => rfl) rfl rfl rfl
  | bufferSend hsec hf | recvClosed hsec hf | gotDone hsec hf | closeDone hsec hf
  | refuse hsec hf | wakeHand hsec hf | wakeGot hsec hf =>
    have hpc := hf ▸ hk.holder _ _ hsec
    exact h.unclaimed rfl rfl rfl (free_lock rfl) (fun _ => List.Sublist.refl _) (past_upd rfl hret)
      (parked_upd rfl (by simp [hpc]))
  | nextCase hsec hf =>
    have hpc := hf ▸ hk.holder _ _ hsec
    exact h.unclaimed rfl rfl rfl (free_lock rfl) (fun _ => List.Sublist.refl _)
      (past_upd rfl (hout (by rw [hpc]; rfl) _ (by rintro ⟨⟩)))
      (parked_upd rfl (by simp [hpc]))
  | @parkPlain ch sec e b hsec hf hst hop hcaller hjob =>
    obtain ⟨rfl, -⟩ := hk.parkPlain_case hsec hf hop hcaller hjob
    have hpc : (s.fibers f).pc = .locked e.ch := hf ▸ hk.holder _ _ hsec
    have hne : ∀ i e' w, Holds s i e' w → w ≠ s.waiter f 0 e := by
      rintro i e' w hw rfl
      exact h.park_ne hw (f := f) (by rw [hpc]; rfl) rfl
    exact h.link (N := (· = s.waiter f 0 e)) rfl rfl (free_lock rfl)
      (fun d w hw => mem_setQueue_push hw) hne rfl (fun w hw => if_neg hw) (by simp [hpc]) (hin _ (by rintro ⟨⟩) rfl)
  | resumeSend hpc hop hdir hlock | resumeRecv hpc hop hdir hlock =>
    refine h.frame (fun i e w hw => ⟨e, hw, rfl, id⟩) h.out (past_upd rfl hret)
      (fun _ _ _ _ hf => hf) (fun g hg hw => upd_other rfl ?_) (fun _ _ _ _ _ => rfl)
    rintro rfl
    exact h.none_of_parked hop hlock hw
  | installDone hpc | installReady hpc | abortLost hpc | loadFired hpc | loadNone hpc
  | evictSkip hpc | evictFired hpc | evictDone hpc =>
    exact h.own rfl rfl rfl rfl (by simp [hpc]) (hin _ (by rintro ⟨⟩) rfl)
  | @installPush i e hpc hcase hlock hready =>
    exact h.link (N := (· = s.waiter f i e)) rfl rfl (fun _ he => he)
      (fun d w hw => mem_setQueue_push hw)
      (fun j e' w hw he => h.not_fresh hl hk hw hpc (Nat.le_refl i) he.symm)
      rfl (fun _ _ => rfl) (by simp [hpc]) (hin _ (by rintro ⟨⟩) rfl)
  | @abortWin i hpc hfired =>
    refine h.frame (fun i e w hw => ⟨e, hw, rfl, id⟩) h.out
      (past_upd rfl (hin _ (by rintro ⟨⟩) rfl))
      (fun j e w hw hf => (if_neg fun he => ?_).trans hf)
      (fun g hg _ => parked_upd rfl (by simp [hpc]) g hg) (fun _ _ _ _ _ => rfl)
    rw [he, hfired] at hf
    cases hf
  | @evictErase why j e hpc hcase hwhy hlock =>
    exact h.link (N := fun _ => False) rfl rfl (fun _ he => he)
      (fun d w hw => .inl ((setQueue_sublist List.erase_sublist d).subset hw)) (fun _ _ _ _ => id)
      rfl (fun _ _ => rfl) (by simp [hpc]) (hin _ (by rintro ⟨⟩) rfl)
  | evictRetry hpc hcase | finishRetry hpc =>
    obtain hr | hr := retry_cases s f <;> rw [hr]
    · exact h.own rfl rfl rfl rfl (by simp [hpc]) hret
    · exact h.own rfl rfl rfl rfl (by simp [hpc]) fun p hp => Fiber.past_retry hp

end Stackweave.Channel.Select
