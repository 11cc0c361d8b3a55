import Stackweave.Channel.Records

/-!
# No stranded peers

A channel that nobody has locked is settled: a sender that could be claimed
waits only on a full ring, a receiver only on an empty one, the two never wait
for each other unless they are cases of one select, and nobody waits on a
closed channel. While a section runs the channel may be short of one value
(`owed`) or hold waiters that a close has not woken yet.

* `reachable_settled`: every channel is settled whenever its lock is free.
-/

namespace Stackweave.Channel.Select

open Transition

variable {V : Type*} {s t : State V} {f : ℕ} {ch : ℕ} {c c' : Chan V}
  {fired fired' : Park → Option ℕ}

/-! ## A channel between and inside sections -/

/-- A receive has taken a value and not yet refilled the slot. -/
def Sect.owed (e : Sect V) : ℕ :=
  match e.job, e.stage with
  | .got _, .popping | .got _, .claimed _ => 1
  | _, _ => 0

def Sect.closing (e : Sect V) : Bool :=
  match e.job with
  | .closeTx | .closeRx => true
  | _ => false

/-- What the section relies on where it is. -/
def Sect.Ok (e : Sect V) (c : Chan V) : Prop :=
  match e.job, e.stage with
  | .hand _, .popping => c.closed = false
  | .hand _, .claimed _ => c.ring.len = 0
  | .take, _ => c.ring.len = 0
  | .got _, .claimed _ => c.ring.len + 1 = c.ring.cap
  | .closeRx, _ => c.senders = []
  | _, _ => True

def Chan.owed (c : Chan V) : ℕ := c.lock.elim 0 Sect.owed

def Chan.closing (c : Chan V) : Bool := c.lock.elim false Sect.closing

structure Settled (fired : Park → Option ℕ) (c : Chan V) : Prop where
  ring : c.ring.WF
  tx_full : ∀ w ∈ c.senders, Claimable fired w → c.ring.len + c.owed = c.ring.cap
  rx_empty : ∀ w ∈ c.receivers, Claimable fired w → c.ring.len = 0 ∧ c.owed = 0
  same_park : ∀ w ∈ c.senders, ∀ r ∈ c.receivers, Claimable fired w → Claimable fired r →
    w.select = true ∧ r.select = true ∧ w.park = r.park
  closed : c.closed = true → c.closing = false →
    ∀ w, w ∈ c.senders ∨ w ∈ c.receivers → ¬ Claimable fired w
  sect : ∀ e, c.lock = some e → e.Ok c

/-- Firing parks makes nobody claimable. -/
theorem Settled.mono (h : Settled fired c)
    (hf : ∀ w, w ∈ c.senders ∨ w ∈ c.receivers → Claimable fired' w → Claimable fired w) :
    Settled fired' c := by
  refine ⟨h.ring, fun w hw hc => h.tx_full w hw (hf w (.inl hw) hc),
    fun w hw hc => h.rx_empty w hw (hf w (.inr hw) hc), fun w hw r hr hcw hcr => ?_,
    fun hcl hno w hw hc => h.closed hcl hno w hw (hf w hw hc), h.sect⟩
  exact h.same_park w hw r hr (hf w (.inl hw) hcw) (hf r (.inr hr) hcr)

/-- The section goes on, or ends, with the same ring and queues no longer than
before. -/
theorem Settled.shrink (h : Settled fired c) (hring : c'.ring = c.ring)
    (hclosed : c'.closed = c.closed) (htx : c'.senders.Sublist c.senders)
    (hrx : c'.receivers.Sublist c.receivers) (howed : c'.owed = c.owed)
    (hclosing : c'.closing = c.closing) (hsect : ∀ e, c'.lock = some e → e.Ok c') :
    Settled fired c' := by
  refine ⟨hring ▸ h.ring, fun w hw hc => ?_, fun w hw hc => ?_, fun w hw r hr => ?_,
    fun hcl hno w hw => ?_, hsect⟩
  · rw [hring, howed]
    exact h.tx_full w (htx.subset hw) hc
  · rw [hring, howed]
    exact h.rx_empty w (hrx.subset hw) hc
  · exact h.same_park w (htx.subset hw) r (hrx.subset hr)
  · rw [hclosed] at hcl
    rw [hclosing] at hno
    exact h.closed hcl hno w (hw.imp (htx.subset ·) (hrx.subset ·))

variable {e : Sect V} {w : Waiter}

theorem Sect.Ok.shrink (h : e.Ok c) (hring : c'.ring = c.ring)
    (hclosed : c'.closed = c.closed) (htx : c'.senders.Sublist c.senders) : e.Ok c' := by
  unfold Sect.Ok at h ⊢
  rw [hring, hclosed]
  split
  case h_5 hjob =>
    simp only [hjob] at h
    exact List.sublist_nil.mp (h ▸ htx)
  all_goals simp_all

theorem Chan.owed_of_lock (h : c.lock = some e) : c.owed = e.owed := by
  simp [Chan.owed, h]

theorem Chan.owed_of_free (h : c.lock = none) : c.owed = 0 := by
  simp [Chan.owed, h]

theorem Chan.closing_of_lock (h : c.lock = some e) : c.closing = e.closing := by
  simp [Chan.closing, h]

theorem Chan.closing_of_free (h : c.lock = none) : c.closing = false := by
  simp [Chan.closing, h]

/-! ## The sections -/

/-- The section moves on to `e` with nothing else changed. -/
theorem Settled.relock {e' : Sect V} (h : Settled fired c) (hlock : c.lock = some e)
    (howed : e'.owed = e.owed) (hclosing : e'.closing = e.closing) (hok : e'.Ok c) :
    Settled fired { c with lock := some e' } := by
  refine h.shrink rfl rfl (List.Sublist.refl _) (List.Sublist.refl _) ?_ ?_ ?_
  · rw [Chan.owed_of_lock hlock, ← howed]
    rfl
  · rw [Chan.closing_of_lock hlock, ← hclosing]
    rfl
  · rintro _ ⟨⟩
    exact hok.shrink rfl rfl (List.Sublist.refl _)

theorem Settled.unlock (h : Settled fired c) (hlock : c.lock = some e)
    (howed : e.owed = 0) (hclosing : e.closing = false) :
    Settled fired { c with lock := none } := by
  refine h.shrink rfl rfl (List.Sublist.refl _) (List.Sublist.refl _) ?_ ?_ (by rintro _ ⟨⟩)
  · rw [Chan.owed_of_lock hlock, howed]
    rfl
  · rw [Chan.closing_of_lock hlock, hclosing]
    rfl

theorem Settled.lock (h : Settled fired c) (hlock : c.lock = none)
    (howed : e.owed = 0) (hclosing : e.closing = false) (hok : e.Ok c) :
    Settled fired { c with lock := some e } := by
  refine h.shrink rfl rfl (List.Sublist.refl _) (List.Sublist.refl _) ?_ ?_ ?_
  · rw [Chan.owed_of_free hlock, ← howed]
    rfl
  · rw [Chan.closing_of_free hlock, ← hclosing]
    rfl
  · rintro _ ⟨⟩
    exact hok.shrink rfl rfl (List.Sublist.refl _)

theorem setQueue_senders {q : List Waiter} {d : Side} (h : q.Sublist (c.queue d)) :
    (c.setQueue q d).senders.Sublist c.senders :=
  setQueue_sublist h .tx

theorem setQueue_receivers {q : List Waiter} {d : Side} (h : q.Sublist (c.queue d)) :
    (c.setQueue q d).receivers.Sublist c.receivers :=
  setQueue_sublist h .rx

/-- A claimed waiter proves what the rest of the section needs. -/
theorem Settled.claim {rest : List Waiter} (h : Settled fired c)
    (hlock : c.lock = some e) (hst : e.stage = .popping) (hq : c.queue e.job.side = w :: rest)
    (hw : Claimable fired w) :
    Settled fired { c.setQueue rest e.job.side with lock := some { e with stage := .claimed w } } := by
  have hsub : rest.Sublist (c.queue e.job.side) := by
    rw [hq]
    exact List.sublist_cons_self _ _
  have hmem : w ∈ c.queue e.job.side := by simp [hq]
  have hok := h.sect e hlock
  have howed := Chan.owed_of_lock hlock
  refine h.shrink rfl rfl (setQueue_senders hsub) (setQueue_receivers hsub) ?_ ?_ ?_
  · rw [howed]
    show Sect.owed { e with stage := .claimed w } = e.owed
    unfold Sect.owed
    rw [hst]
    cases e.job <;> rfl
  · rw [Chan.closing_of_lock hlock]
    rfl
  · rintro _ ⟨⟩
    suffices hok' : Sect.Ok { e with stage := .claimed w } c from
      hok'.shrink rfl rfl (setQueue_senders hsub)
    unfold Sect.owed at howed
    unfold Sect.Ok at hok ⊢
    rw [hst] at hok howed
    cases hjob : e.job with
    | hand v =>
      rw [hjob] at hmem
      exact (h.rx_empty w hmem hw).1
    | take =>
      rw [hjob] at hok
      exact hok
    | got p =>
      rw [hjob] at hmem howed
      have := h.tx_full w hmem hw
      rwa [howed] at this
    | closeTx => trivial
    | closeRx =>
      rw [hjob] at hok
      exact hok

/-- A value taken from the ring: nobody waits to receive, and one slot is owed
to a waiting sender. -/
theorem Settled.pop {caller : Caller} {p : Option V} (h : Settled fired c) (hlock : c.lock = none)
    (hlen : 0 < c.ring.len) :
    Settled fired { c with ring := (bufPop c.ring).2, lock := some ⟨f, caller, .got p, .popping⟩ } := by
  have hfree := Chan.owed_of_free hlock
  refine ⟨h.ring.pop hlen, fun w hw hc => ?_, fun w hw hc => ?_, h.same_park,
    fun hcl _ w hw => ?_, ?_⟩
  · have := h.tx_full w hw hc
    show c.ring.len - 1 + 1 = c.ring.cap
    omega
  · have := (h.rx_empty w hw hc).1
    omega
  · exact h.closed hcl (Chan.closing_of_free hlock) w hw
  · rintro _ ⟨⟩
    trivial

/-- The claimed sender's value goes into the freed slot. -/
theorem Settled.refill {p : Option V} {v : V} (h : Settled fired c)
    (hlock : c.lock = some e) (hst : e.stage = .claimed w) (hjob : e.job = .got p) :
    Settled fired { c with ring := bufPush c.ring (some v)
                           lock := some { e with stage := .waking w } } := by
  have howed : c.owed = 1 := by
    rw [Chan.owed_of_lock hlock, Sect.owed, hjob, hst]
  have hroom : c.ring.len + 1 = c.ring.cap := by
    have := h.sect e hlock
    rwa [Sect.Ok, hjob, hst] at this
  refine ⟨h.ring.push (by omega) v, fun w hw hc => ?_, fun w hw hc => ?_, h.same_park,
    fun hcl hno w hw => ?_, ?_⟩
  · show c.ring.len + 1 + Sect.owed _ = c.ring.cap
    simp only [Sect.owed, hjob]
    exact hroom
  · have := (h.rx_empty w hw hc).2
    omega
  · refine h.closed hcl ?_ w hw
    rw [Chan.closing_of_lock hlock]
    exact hno
  · rintro _ ⟨⟩
    simp [Sect.Ok, hjob]

/-- No sender was left to refill the slot. -/
theorem Settled.notRefilled {p : Option V} (h : Settled fired c)
    (hlock : c.lock = some e) (hst : e.stage = .popping) (hjob : e.job = .got p)
    (htx : c.senders = []) : Settled fired { c with lock := none } := by
  have howed : c.owed = 1 := by
    rw [Chan.owed_of_lock hlock, Sect.owed, hjob, hst]
  refine ⟨h.ring, by simp [htx], fun w hw hc => ?_, h.same_park, fun hcl _ w hw => ?_, by rintro _ ⟨⟩⟩
  · have := (h.rx_empty w hw hc).2
    omega
  · refine h.closed hcl ?_ w hw
    rw [Chan.closing_of_lock hlock, Sect.closing, hjob]

/-- A send into a ring with room finds no waiting sender. -/
theorem Settled.buffer {v v' : V} (h : Settled fired c) (hlock : c.lock = some e)
    (hst : e.stage = .popping) (hjob : e.job = .hand v) (hrx : c.receivers = [])
    (hroom : c.ring.len < c.ring.cap) :
    Settled fired { c with ring := bufPush c.ring (some v'), lock := none } := by
  have howed : c.owed = 0 := by
    rw [Chan.owed_of_lock hlock, Sect.owed, hjob]
  have hopen : c.closed = false := by
    have := h.sect e hlock
    rwa [Sect.Ok, hjob, hst] at this
  refine ⟨h.ring.push hroom v', fun w hw hc => ?_, by simp [hrx], by simp [hrx], by simp [hopen],
    (by intros; contradiction)⟩
  have := h.tx_full w hw hc
  omega

theorem Settled.startClose (h : Settled fired c) (hlock : c.lock = none)
    (howed : e.owed = 0) (hclosing : e.closing = true) (hok : ∀ c' : Chan V, e.Ok c') :
    Settled fired { c with closed := true, lock := some e } := by
  have hfree := Chan.owed_of_free hlock
  refine ⟨h.ring, fun w hw hc => ?_, fun w hw hc => ?_, h.same_park, fun _ hno => ?_, ?_⟩
  · have := h.tx_full w hw hc
    show c.ring.len + e.owed = c.ring.cap
    omega
  · have := h.rx_empty w hw hc
    exact ⟨this.1, howed⟩
  · rw [show Chan.closing _ = e.closing from rfl, hclosing] at hno
    cases hno
  · rintro _ ⟨⟩
    exact hok _

theorem Settled.endClose (h : Settled fired c) (htx : c.senders = []) (hrx : c.receivers = []) :
    Settled fired { c with lock := none } :=
  ⟨h.ring, by simp [htx], by simp [hrx], by simp [htx], by simp [htx, hrx], by rintro _ ⟨⟩⟩

/-- A sender joins the queue of a full, open channel. -/
theorem Settled.pushTx {l : Option (Sect V)} (h : Settled fired c) (hl : l = none)
    (hlen : c.ring.len = c.ring.cap) (hopen : c.closed = false)
    (hrx : ∀ r ∈ c.receivers, Claimable fired r →
      w.select = true ∧ r.select = true ∧ w.park = r.park) :
    Settled fired { c with senders := c.senders ++ [w], lock := l } := by
  subst hl
  refine ⟨h.ring, fun _ _ _ => hlen, fun r hr hc => ⟨(h.rx_empty r hr hc).1, rfl⟩,
    fun v hv r hr hcv hcr => ?_, by simp [hopen], by rintro _ ⟨⟩⟩
  rcases List.mem_append.mp hv with hv | hv
  · exact h.same_park v hv r hr hcv hcr
  · rw [List.mem_singleton.mp hv]
    exact hrx r hr hcr

/-- A receiver joins the queue of an empty, open channel. -/
theorem Settled.pushRx {l : Option (Sect V)} (h : Settled fired c) (hl : l = none)
    (howed : c.owed = 0) (hlen : c.ring.len = 0) (hopen : c.closed = false)
    (htx : ∀ v ∈ c.senders, Claimable fired v →
      v.select = true ∧ w.select = true ∧ v.park = w.park) :
    Settled fired { c with receivers := c.receivers ++ [w], lock := l } := by
  subst hl
  refine ⟨h.ring, fun v hv hc => ?_, fun _ _ _ => ⟨hlen, rfl⟩, fun v hv r hr hcv hcr => ?_,
    by simp [hopen], by rintro _ ⟨⟩⟩
  · have := h.tx_full v hv hc
    show c.ring.len + 0 = c.ring.cap
    omega
  · rcases List.mem_append.mp hr with hr | hr
    · exact h.same_park v hv r hr hcv hcr
    · rw [List.mem_singleton.mp hr]
      exact htx v hv hcv

/-! ## Every move -/

theorem settled_upd (h : ∀ i, Settled s.fired (s.chans i))
    (hchan : t.chans = fun i => if i = ch then c else s.chans i) (hfired : t.fired = s.fired)
    (hc : Settled s.fired c) (i : ℕ) : Settled t.fired (t.chans i) := by
  rw [hfired]
  by_cases hi : i = ch
  · rw [hi, upd_self hchan]
    exact hc
  · rw [upd_other hchan hi]
    exact h i

theorem settled_same (h : ∀ i, Settled s.fired (s.chans i)) (hchan : t.chans = s.chans)
    (hfired : t.fired = s.fired) (i : ℕ) : Settled t.fired (t.chans i) := by
  rw [hfired, hchan]
  exact h i

theorem claimable_of_fire {p : Park} {k : ℕ}
    (h : Claimable (fun q => if q = p then some k else fired q) w) : Claimable fired w := by
  rcases h with h | h
  · exact .inl h
  · by_cases hp : w.park = p
    · simp [hp] at h
    · simp only [hp, if_false] at h
      exact .inr h

theorem own_of_not_foreign {q : List Waiter} {p : Park} (h : waiterHasForeign q p = false)
    (w : Waiter) (hw : w ∈ q) : w.select = true ∧ w.park = p := by
  have := List.any_eq_false.mp h w hw
  simpa using this

theorem settled_step (h : ∀ i, Settled s.fired (s.chans i)) (hk : Locks s) (hl : Linked s)
    (hh : Held s) (hm : Move s f t) : ∀ i, Settled t.fired (t.chans i) := by
  cases hm with
  | call | toScan | draw | sendClosed | retStart | retScan | resumeSend | resumeRecv | installDone
  | installReady | abortLost | loadFired | loadNone | evictSkip | evictFired | evictDone
  | finishSend | finishRecv => exact settled_same h rfl rfl
  | evictRetry | finishRetry =>
    obtain hr | hr := retry_cases s f <;> rw [hr] <;> exact settled_same h rfl rfl
  | enterHand hat hlock hdir hopen =>
    exact settled_upd h rfl rfl ((h _).lock hlock rfl rfl hopen)
  | enterGot hat hlock hdir hlen => exact settled_upd h rfl rfl ((h _).pop hlock hlen)
  | enterTake hat hlock hdir hlen =>
    exact settled_upd h rfl rfl ((h _).lock hlock rfl rfl hlen)
  | enterClose hpc hop hlock =>
    exact settled_upd h rfl rfl ((h _).startClose hlock rfl rfl fun _ => trivial)
  | newPark hpc =>
    intro i
    refine (h i).mono fun w hw hc => ?_
    have hw : ∃ d, w ∈ (s.chans i).queue d := by
      rcases hw with hw | hw
      · exact ⟨.tx, hw⟩
      · exact ⟨.rx, hw⟩
    obtain ⟨d, hw⟩ := hw
    have hne : w.park ≠ s.park f := fun he =>
      hl.none_of_pc (f := f) (by simp [hpc, Pc.links]) i d w hw (congrArg Park.fiber he)
    rcases hc with hc | hc
    · exact .inl hc
    · exact .inr ((if_neg hne).symm.trans hc)
  | abortWin => exact fun i => (h i).mono fun w _ hc => claimable_of_fire hc
  | tombstone hsec hf hst hq =>
    have hsub := hq.symm ▸ List.sublist_cons_self _ _
    refine settled_upd h rfl rfl ((h _).shrink rfl rfl (setQueue_senders hsub)
      (setQueue_receivers hsub) (Chan.owed_of_lock hsec).symm (Chan.closing_of_lock hsec).symm ?_)
    rintro _ ⟨⟩
    exact ((h _).sect _ hsec).shrink rfl rfl (setQueue_senders hsub)
  | claimPlain hsec hf hst hq hsel =>
    exact settled_upd h rfl rfl ((h _).claim hsec hst hq (.inl hsel))
  | @claimSelect ch sec w rest hsec hf hst hq hsel hfired =>
    refine settled_upd (s := s.setFired w.park (some w.case)) (fun i => ?_) rfl rfl ?_
    · exact (h i).mono fun w _ hc => claimable_of_fire hc
    · exact ((h ch).claim hsec hst hq (.inr hfired)).mono fun w _ hc => claimable_of_fire hc
  | closeNext hsec hf hst hjob hq =>
    refine settled_upd h rfl rfl ((h _).relock hsec ?_ ?_ hq)
    · simp [Sect.owed, hjob]
    · simp [Sect.closing, hjob]
  | fillHand hsec hf hst hjob | fillCloseTx hsec hf hst hjob =>
    refine settled_upd h rfl rfl ((h _).relock hsec ?_ rfl ?_)
    · simp [Sect.owed, hjob]
    · simp [Sect.Ok, hjob]
  | fillCloseRx hsec hf hst hjob =>
    refine settled_upd h rfl rfl ((h _).relock hsec ?_ rfl ?_)
    · simp [Sect.owed, hjob]
    · simpa [Sect.Ok, hjob] using (h _).sect _ hsec
  | fillTake hsec hf hst hjob =>
    refine settled_upd h rfl rfl ((h _).relock hsec ?_ ?_ trivial)
    · simp [Sect.owed, hjob]
    · simp [Sect.closing, hjob]
  | @fillGot ch sec w p hsec hf hst hjob =>
    have hw : Holds s ch sec w := ⟨hsec, by rw [hst]; rfl⟩
    have hside := (hh.home ch sec w hw).2
    rw [hjob] at hside
    obtain ⟨v, hv⟩ := Option.isSome_iff_exists.mp (hh.value ch sec w hw hst hside)
    rw [hv]
    exact settled_upd h rfl rfl ((h _).refill hsec hst hjob)
  | wakeClose hsec hf hst hjob =>
    refine settled_upd h rfl rfl ((h _).relock hsec ?_ rfl ?_)
    · rcases hjob with hjob | hjob <;> simp [Sect.owed, hjob]
    · have := (h _).sect _ hsec
      rcases hjob with hjob | hjob <;> simp_all [Sect.Ok]
  | bufferSend hsec hf hst hjob hq hroom =>
    exact settled_upd h rfl rfl ((h _).buffer hsec hst hjob hq hroom)
  | recvClosed hsec hf hst hjob =>
    exact settled_upd h rfl rfl ((h _).unlock hsec (by simp [Sect.owed, hjob])
      (by simp [Sect.closing, hjob]))
  | gotDone hsec hf hst hjob hq =>
    exact settled_upd h rfl rfl ((h _).notRefilled hsec hst hjob hq)
  | closeDone hsec hf hst hjob hq =>
    refine settled_upd h rfl rfl ((h _).endClose ?_ hq)
    simpa [Sect.Ok, hjob] using (h _).sect _ hsec
  | refuse hsec hf hst hjob | nextCase hsec hf hst hcaller hjob =>
    refine settled_upd h rfl rfl ((h _).unlock hsec ?_ ?_)
    · rcases hjob with hjob | ⟨v, hjob⟩ <;> simp [Sect.owed, hjob]
    · rcases hjob with hjob | ⟨v, hjob⟩ <;> simp [Sect.closing, hjob]
  | wakeHand hsec hf hst hjob | wakeGot hsec hf hst hjob =>
    exact settled_upd h rfl rfl ((h _).unlock hsec (by simp [Sect.owed, hjob, hst])
      (by simp [Sect.closing, hjob]))
  | @parkPlain ch sec e b hsec hf hst hop hcaller hjob =>
    obtain ⟨rfl, hdir⟩ := hk.parkPlain_case hsec hf hop hcaller hjob
    refine settled_upd h rfl rfl ?_
    have hok := (h e.ch).sect _ hsec
    rcases hdir with ⟨v, hdir, hj⟩ | ⟨hdir, hj⟩
    · obtain ⟨hrx, hfull⟩ : (s.chans e.ch).receivers = [] ∧
          (s.chans e.ch).ring.cap ≤ (s.chans e.ch).ring.len := by simpa [hj] using hjob
      rw [Sect.Ok, hj, hst] at hok
      rw [show e.dir.side = .tx by rw [hdir]; rfl]
      exact (h _).pushTx rfl (Nat.le_antisymm (h _).ring.len_le hfull) hok (by simp [hrx])
    · obtain ⟨htx, hopen⟩ : (s.chans e.ch).senders = [] ∧ (s.chans e.ch).closed = false := by
        simpa [hj] using hjob
      rw [Sect.Ok, hj] at hok
      rw [show e.dir.side = .rx by rw [hdir]; rfl]
      refine (h _).pushRx rfl ?_ hok hopen (by simp [htx])
      rw [Chan.owed_of_lock hsec, Sect.owed, hj]
  | @installPush i e hpc hcase hlock hready =>
    have hsel : (s.waiter f i e).select = true := hk.selecting f (by rw [hpc]; rfl)
    refine settled_upd h rfl rfl ?_
    cases hdir : e.dir with
    | send v =>
      rw [hdir] at hready
      simp only [ready, Bool.or_eq_false_iff, decide_eq_false_iff_not] at hready
      obtain ⟨⟨hopen, hfull⟩, hforeign⟩ := hready
      have hlen := (h e.ch).ring.len_le
      exact (h e.ch).pushTx hlock (by omega) hopen fun r hr _ =>
        ⟨hsel, (own_of_not_foreign hforeign r hr).1, (own_of_not_foreign hforeign r hr).2.symm⟩
    | recv =>
      rw [hdir] at hready
      simp only [ready, Bool.or_eq_false_iff, decide_eq_false_iff_not] at hready
      obtain ⟨⟨hopen, hempty⟩, hforeign⟩ := hready
      exact (h e.ch).pushRx hlock (Chan.owed_of_free hlock) (Nat.eq_zero_of_not_pos hempty) hopen
        fun r hr _ => ⟨(own_of_not_foreign hforeign r hr).1, hsel,
          (own_of_not_foreign hforeign r hr).2⟩
  | @evictErase why j e hpc hcase hwhy hlock =>
    refine settled_upd h rfl rfl ((h _).shrink rfl rfl (setQueue_senders List.erase_sublist)
      (setQueue_receivers List.erase_sublist) rfl rfl ?_)
    intro e' he
    change (s.chans e.ch).lock = some e' at he
    rw [hlock] at he
    cases he

/-! ## Every reachable state -/

/-- The invariants together. -/
structure Inv (s : State V) : Prop where
  locks : Locks s
  linked : Linked s
  held : Held s
  settled : ∀ ch, Settled s.fired (s.chans ch)

theorem Inv.step (h : Inv s) (hm : Move s f t) : Inv t :=
  ⟨h.locks.step hm, h.linked.step h.locks h.held hm, h.held.step h.locks h.linked hm,
    settled_step h.settled h.locks h.linked h.held hm⟩

theorem Inv.init (h : Initial s) : Inv s := by
  obtain ⟨hchan, hfib, -, -⟩ := h
  have hq : ∀ ch d, (s.chans ch).queue d = [] := by
    intro ch d
    obtain ⟨cap, hc⟩ := hchan ch
    rw [hc]
    cases d <;> rfl
  have hlock : ∀ ch, (s.chans ch).lock = none := by
    intro ch
    obtain ⟨cap, hc⟩ := hchan ch
    rw [hc]
  have hholds : ∀ ch e w, ¬ Holds s ch e w := by
    intro ch e w hw
    rw [Holds, hlock] at hw
    cases hw.1
  refine ⟨⟨?_, ?_, ?_, ?_⟩, ⟨?_, ?_, ?_, ?_, ?_, ?_, ?_, ?_⟩, ⟨?_, ?_, ?_, ?_, ?_, ?_⟩, ?_⟩
  · simp [hlock]
  · simp [hlock]
  · simp [hlock]
  · simp [hfib, Pc.selecting]
  · simp [hq]
  · simp [hq]
  · simp [hq]
  · simp [hq]
  · simp [hq]
  · simp [hq]
  · simp [hfib, Pc.installed]
  · simp [hfib]
  all_goals try exact fun ch e w hw => absurd hw (hholds ch e w)
  intro ch
  obtain ⟨cap, hc⟩ := hchan ch
  rw [hc]
  exact ⟨Ring.WF.new cap, by simp, by simp, by simp, by simp, by simp⟩

theorem reachable_inv {goroutine : ℕ → Bool} (h : Reachable (system goroutine) s) : Inv s := by
  induction h with
  | start hs => exact Inv.init hs
  | next _ hs ih => exact ih.step (step_move hs)

/-- A channel on which no peers wait for each other. -/
structure NoStranded (fired : Park → Option ℕ) (c : Chan V) : Prop where
  len_le : c.ring.len ≤ c.ring.cap
  tail_eq : 0 < c.ring.cap → c.ring.tail = (c.ring.head + c.ring.len) % c.ring.cap
  live : ∀ j < c.ring.cap,
    (c.ring.buf j).isSome ↔ ∃ i < c.ring.len, j = (c.ring.head + i) % c.ring.cap
  tx_full : ∀ w ∈ c.senders, Claimable fired w → c.ring.len = c.ring.cap
  rx_empty : ∀ w ∈ c.receivers, Claimable fired w → c.ring.len = 0
  same_park : ∀ w ∈ c.senders, ∀ r ∈ c.receivers, Claimable fired w → Claimable fired r →
    w.select = true ∧ r.select = true ∧ w.park = r.park
  closed : c.closed = true → ∀ w, w ∈ c.senders ∨ w ∈ c.receivers → ¬ Claimable fired w

/-- **No stranded peers.** In every interleaving of plain calls, selects and
closes, on every channel whose lock is free. -/
theorem reachable_noStranded {goroutine : ℕ → Bool} (h : Reachable (system goroutine) s)
    (hfree : (s.chans ch).lock = none) : NoStranded s.fired (s.chans ch) := by
  have hs := (reachable_inv h).settled ch
  have howed := Chan.owed_of_free hfree
  refine ⟨hs.ring.len_le, hs.ring.tail_eq, hs.ring.live, fun w hw hc => ?_, fun w hw hc => ?_,
    hs.same_park, fun hcl => hs.closed hcl (Chan.closing_of_free hfree)⟩
  · have := hs.tx_full w hw hc
    omega
  · exact (hs.rx_empty w hw hc).1

/-- Unbuffered channels and fibers that have called nothing. -/
def unbuffered : State ℕ where
  chans _ := ⟨Ring.new 0, false, [], [], none⟩
  fibers _ := ⟨0, .close 0, 0, .idle⟩
  fired _ := none
  records _ := ⟨none, 0, 0, false⟩
  hist := []
  results _ _ := none

theorem unbuffered_initial : Initial unbuffered :=
  ⟨fun _ => ⟨0, rfl⟩, fun _ => ⟨rfl, rfl⟩, rfl, fun _ _ => rfl⟩

/-- A select that sends and receives on one channel waits in both queues. -/
theorem reachable_noStranded_selfSelect :
    ∃ s : State ℕ, Reachable (system fun _ => true) s ∧ (s.chans 0).lock = none ∧
      (s.chans 0).senders = [⟨⟨0, 0, 0⟩, 0, true, 0, .tx⟩] ∧
      (s.chans 0).receivers = [⟨⟨0, 0, 0⟩, 1, true, 0, .rx⟩] ∧
      s.fired ⟨0, 0, 0⟩ = none ∧ NoStranded s.fired (s.chans 0) := by
  have hr : Reachable (system fun _ => true) _ :=
    reachable_of_run _ (.flatten [[.call 0 (.select [⟨0, .send 7⟩, ⟨0, .recv⟩] false), .advance 0,
      .draw 0 0 1], .replicate 8 (.advance 0)]) unbuffered_initial rfl
  exact ⟨_, hr, rfl, rfl, rfl, rfl, reachable_noStranded hr rfl⟩

end Stackweave.Channel.Select
