import Stackweave.Channel.Settled

/-!
# Values on the way, and claimers at work

Two invariants that the accounts of the calls rest on.

* `Conserved`: on every channel the values given away are the values received,
  in order, followed by the ring. It holds in every interleaving.
* `Attended`: a section accesses only records of a park that is still under
  way. It is kept as long as no select that was resumed loads `fired_case`
  while the section that claimed it is at work (`InTime`).
-/

namespace Stackweave.Channel.Select

open Transition

variable {V : Type*} {s t : State V} {f g : ℕ} {x : Fiber V} {ch : ℕ} {c : Chan V}

/-! ## No value is lost on the way -/

/-- The pointers that left their senders (`tx`) or reached a receiver (`rx`) on
this channel, in order. -/
def State.moved (s : State V) (d : Side) (ch : ℕ) : List (Option V) :=
  (s.hist.filter fun e => e.side = d ∧ e.ch = ch).map Event.value

/-- What was given away on a channel is what was received on it, in the same
order, followed by the ring. -/
def Conserved (s : State V) : Prop :=
  ∀ ch, s.moved .tx ch = s.moved .rx ch ++ (s.chans ch).ring.contents

theorem moved_log {es : List (Event V)} (hhist : t.hist = s.hist ++ es) (d : Side) (ch : ℕ) :
    t.moved d ch =
      s.moved d ch ++ (es.filter fun e => e.side = d ∧ e.ch = ch).map Event.value := by
  simp [State.moved, hhist]

theorem Conserved.same (h : Conserved s) (hhist : t.hist = s.hist)
    (hring : ∀ i, (t.chans i).ring = (s.chans i).ring) : Conserved t := by
  intro i
  rw [State.moved, State.moved, hhist, hring]
  exact h i

theorem Conserved.upd {es : List (Event V)} (h : Conserved s) (hhist : t.hist = s.hist ++ es)
    (hchan : t.chans = fun i => if i = ch then c else s.chans i)
    (hes : ∀ e ∈ es, e.ch = ch)
    (hc : (s.chans ch).ring.contents ++ (es.filter (·.side = .tx)).map Event.value =
      (es.filter (·.side = .rx)).map Event.value ++ c.ring.contents) : Conserved t := by
  have hfilter : ∀ d i, (es.filter fun e => e.side = d ∧ e.ch = i) =
      if i = ch then es.filter (·.side = d) else [] := by
    intro d i
    split
    case isTrue hi =>
      subst hi
      refine List.filter_congr fun e he => ?_
      simp [hes e he]
    case isFalse hi =>
      refine List.filter_eq_nil_iff.mpr fun e he => ?_
      simp [hes e he, Ne.symm hi]
  intro i
  rw [moved_log hhist, moved_log hhist, hfilter, hfilter, h i]
  by_cases hi : i = ch
  · subst hi
    simp only [if_true, upd_self hchan]
    rw [List.append_assoc, List.append_assoc, hc]
  · simp [hi, upd_other hchan hi]

theorem conserved_step (hi : Inv s) (h : Conserved s) (hm : Move s f t) : Conserved t := by
  have hsame : ∀ {i ch : ℕ} {c : Chan V}, c.ring = (s.chans ch).ring →
      ((s.setChan ch c).chans i).ring = (s.chans i).ring := by
    intro i ch c hc
    by_cases hi : i = ch
    · simp [State.setChan, hi, hc]
    · simp [State.setChan, hi]
  cases hm with
  | call | toScan | draw | sendClosed | retStart | retScan | newPark | resumeSend | resumeRecv
  | installDone | installReady | abortWin | abortLost | loadFired | loadNone | evictSkip
  | evictFired | evictDone | finishSend | finishRecv => exact h.same rfl fun _ => rfl
  | evictRetry | finishRetry =>
    obtain hr | hr := retry_cases s f <;> rw [hr] <;> exact h.same rfl fun _ => rfl
  | enterHand | enterTake | enterClose | tombstone | claimPlain | claimSelect | recvClosed
  | gotDone | closeNext | closeDone | refuse | parkPlain | nextCase | fillCloseTx | fillCloseRx
  | wakeHand | wakeGot | wakeClose | installPush | evictErase =>
    exact h.same rfl fun _ => hsame rfl
  | @enterGot caller c hat hlock hdir hlen =>
    refine h.upd rfl rfl (by simp [State.event]) ?_
    simp [State.event, ((hi.settled c.ch).ring).contents_pop hlen]
  | @bufferSend ch sec v hsec hf hst hjob hq hroom =>
    refine h.upd rfl rfl (by simp [State.event]) ?_
    simp [State.event, (hi.settled ch).ring.contents_push hroom]
  | @fillHand ch sec w v hsec hf hst hjob =>
    obtain ⟨hch, hside⟩ := hi.held.home ch sec w ⟨hsec, by rw [hst]; rfl⟩
    rw [hjob] at hside
    have hok := (hi.settled ch).sect sec hsec
    rw [Sect.Ok, hjob, hst] at hok
    refine h.upd rfl rfl (by simp [State.event, Waiter.event, hch]) ?_
    simp [State.event, Waiter.event, hside, Job.side, Ring.contents_eq_nil hok]
  | @fillTake ch sec w hsec hf hst hjob =>
    obtain ⟨hch, hside⟩ := hi.held.home ch sec w ⟨hsec, by rw [hst]; rfl⟩
    rw [hjob] at hside
    have hok := (hi.settled ch).sect sec hsec
    rw [Sect.Ok, hjob] at hok
    refine h.upd rfl rfl (by simp [State.event, Waiter.event, hch]) ?_
    simp [State.event, Waiter.event, hside, Job.side, Ring.contents_eq_nil hok]
  | @fillGot ch sec w p hsec hf hst hjob =>
    obtain ⟨hch, hside⟩ := hi.held.home ch sec w ⟨hsec, by rw [hst]; rfl⟩
    rw [hjob] at hside
    have hok := (hi.settled ch).sect sec hsec
    rw [Sect.Ok, hjob, hst] at hok
    refine h.upd rfl rfl (by simp [Waiter.event, hch]) ?_
    simp [Waiter.event, hside, Job.side, (hi.settled ch).ring.contents_push (show _ < _ by omega)]

/-! ## A claimer finds its waiter waiting -/

/-- A section that has claimed the park of `f` is not done with the record. -/
def beingServed (s : State V) (f : ℕ) : Bool :=
  (s.fibers f).op.cases.any fun c =>
    match (s.chans c.ch).lock with
    | some e => e.stage.record.any fun w => w.park == s.park f
    | none => false

/-- No resumed select loads `fired_case` while its claimer is at work. -/
def InTime (s : State V) : Action V → Prop
  | .advance f => (s.fibers f).pc = .selParked → beingServed s f = false
  | _ => True

instance (s : State V) (a : Action V) : Decidable (InTime s a) :=
  match a with
  | .advance _ => inferInstanceAs (Decidable (_ → _))
  | .call _ _ | .draw _ _ _ => inferInstanceAs (Decidable True)

/-- The owner of a claimed record is still where the claim can reach it. -/
@[grind =]
def Pc.awaits (pc : Pc) (w : Waiter) : Prop :=
  match pc with
  | .parked => w.select = false ∧ w.case = 0
  | .install i | .abort i => w.select = true ∧ w.case < i
  | .selParked => w.select = true
  | .evict .spurious j => w.select = true ∧ j ≤ w.case
  | _ => False

theorem Pc.awaits_of_links {pc : Pc} {w : Waiter} (h : pc.links w)
    (habort : ∀ j, pc ≠ .evict .abort j) (hfinal : ∀ k j, pc ≠ .evict (.final k) j) :
    pc.awaits w := by
  cases pc with
  | evict why j =>
    cases why with
    | abort => exact absurd rfl (habort j)
    | spurious => exact ⟨h.1, h.2.1⟩
    | final k => exact absurd rfl (hfinal k j)
  | _ => exact h

theorem Pc.awaits_inPark {pc : Pc} {w : Waiter} (h : pc.awaits w) : pc.inPark = true := by
  cases pc <;> first | rfl | exact absurd h id

/-- The park has fired for good. -/
def Pc.decided : Pc → Bool
  | .evict .abort _ | .evict (.final _) _ | .finish _ => true
  | _ => false

/-- Every record that a section still accesses belongs to a park in progress. -/
structure Attended (s : State V) : Prop where
  live : ∀ ch e w, Holds s ch e w →
    s.nameOf w.park.fiber w.case = some w ∧ (s.fibers w.park.fiber).pc.awaits w
  decided : ∀ f, (s.fibers f).pc.decided = true → s.fired (s.park f) ≠ none

theorem Attended.park_eq {e : Sect V} {w : Waiter} (h : Attended s) (hw : Holds s ch e w) :
    w.park = s.park w.park.fiber := by
  obtain ⟨k, -, hk⟩ := nameOf_eq (h.live ch e w hw).1
  conv_lhs => rw [hk]
  rfl

theorem Attended.not_park (h : Attended s) (hh : Held s) (hs : beingServed s f = false)
    (i : ℕ) (e : Sect V) (w : Waiter) (hw : Holds s i e w) : w.park.fiber ≠ f := by
  rintro rfl
  obtain ⟨k, hk, hwk⟩ := nameOf_eq (h.live i e w hw).1
  have hch : k.ch = i := by
    have := (hh.home i e w hw).1
    rwa [hwk] at this
  have hpark := h.park_eq hw
  rw [beingServed, List.any_eq_false] at hs
  apply hs k (List.mem_of_getElem? hk)
  rw [hch, hw.1]
  simp [hw.2, ← hpark]

theorem Attended.none_of_pc (h : Attended s) (hpc : ∀ w, ¬ (s.fibers f).pc.awaits w) (i : ℕ)
    (e : Sect V) (w : Waiter) (hw : Holds s i e w) : w.park.fiber ≠ f := by
  rintro rfl
  exact hpc w (h.live i e w hw).2

/-- The locks that an eviction took are behind the sections that had claimed. -/
theorem Attended.none_of_end {why : Evict} {j : ℕ} (h : Attended s)
    (hpc : (s.fibers f).pc = .evict why j) (hcase : (s.fibers f).op.cases[j]? = none) (i : ℕ)
    (e : Sect V) (w : Waiter) (hw : Holds s i e w) : w.park.fiber ≠ f := by
  rintro rfl
  obtain ⟨hname, ha⟩ := h.live i e w hw
  obtain ⟨c, hc, -⟩ := nameOf_eq hname
  rw [hpc] at ha
  cases why with
  | spurious =>
    have hlt := (List.getElem?_eq_some_iff.mp hc).1
    have hle := List.getElem?_eq_none_iff.mp hcase
    have := ha.2
    omega
  | abort => exact ha
  | final k => exact ha

theorem Attended.stay (h : Attended s) (hfib : t.fibers = s.fibers)
    (hfired : ∀ p, s.fired p ≠ none → t.fired p ≠ none)
    (hheld : ∀ i e w, Holds t i e w → (∃ e', Holds s i e' w) ∨
      (s.nameOf w.park.fiber w.case = some w ∧ (s.fibers w.park.fiber).pc.awaits w)) :
    Attended t := by
  refine ⟨fun i e w hw => ?_, fun g hg => ?_⟩
  · rw [nameOf_congr (congrFun hfib _), hfib]
    rcases hheld i e w hw with ⟨e', hw⟩ | hw
    · exact h.live i e' w hw
    · exact hw
  · rw [hfib] at hg
    rw [State.park, hfib]
    exact hfired _ (h.decided g hg)

/-- A move of a fiber that nobody has claimed. -/
theorem Attended.away (h : Attended s) (hfib : t.fibers = fun j => if j = f then x else s.fibers j)
    (hheld : ∀ i e w, Holds t i e w → Holds s i e w)
    (hnone : ∀ i e w, Holds s i e w → w.park.fiber ≠ f)
    (hfired : ∀ p, p.fiber ≠ f → t.fired p = s.fired p)
    (hdecided : x.pc.decided = true → t.fired ⟨f, x.call, x.retries⟩ ≠ none) : Attended t := by
  refine ⟨fun i e w hw => ?_, fun g hg => ?_⟩
  · have hw := hheld i e w hw
    have hne := hnone i e w hw
    rw [nameOf_congr (upd_other hfib hne), upd_other hfib hne]
    exact h.live i e w hw
  · by_cases hgf : g = f
    · subst hgf
      simp only [State.park, upd_self hfib] at hg ⊢
      exact hdecided hg
    · simp only [State.park, upd_other hfib hgf] at hg ⊢
      rw [hfired _ hgf]
      exact h.decided g hg

/-- A fiber moves on within its attempt, which is not decided yet. -/
theorem Attended.advance {pc : Pc} (h : Attended s)
    (hfib : t.fibers = fun j => if j = f then { s.fibers f with pc := pc } else s.fibers j)
    (hfired : t.fired = s.fired) (hheld : ∀ i e w, Holds t i e w → Holds s i e w)
    (hown : ∀ i e w, Holds s i e w → w.park = s.park f → (s.fibers f).pc.awaits w → pc.awaits w)
    (hdecided : pc.decided = true → (s.fibers f).pc.decided = true) : Attended t := by
  refine ⟨fun i e w hw => ?_, fun g hg => ?_⟩
  · have hw := hheld i e w hw
    obtain ⟨hname, hpc⟩ := h.live i e w hw
    rw [nameOf_goto hfib]
    refine ⟨hname, ?_⟩
    by_cases hwf : w.park.fiber = f
    · have hpark := h.park_eq hw
      rw [hwf] at hpc hpark
      rw [hwf, upd_self hfib]
      exact hown i e w hw hpark hpc
    · rw [upd_other hfib hwf]
      exact hpc
  · rw [hfired]
    by_cases hgf : g = f
    · subst hgf
      simp only [State.park, upd_self hfib] at hg ⊢
      exact h.decided g (hdecided hg)
    · simp only [State.park, upd_other hfib hgf] at hg ⊢
      exact h.decided g hg

theorem holds_upd {i : ℕ} {e : Sect V} {w : Waiter}
    (hchan : t.chans = fun i => if i = ch then c else s.chans i)
    (hlock : ∀ e, c.lock = some e → e.stage.record = none ∨ (s.chans ch).lock = some e)
    (hw : Holds t i e w) : Holds s i e w := by
  by_cases hi : i = ch
  · rw [Holds, hi, upd_self hchan] at hw
    rcases hlock e hw.1 with hnone | hsame
    · rw [hnone] at hw
      cases hw.2
    · exact hi ▸ ⟨hsame, hw.2⟩
  · rw [Holds, upd_other hchan hi] at hw
    exact hw

theorem holds_fill {i : ℕ} {sec e e' : Sect V} {w v : Waiter}
    (hchan : t.chans = fun i => if i = ch then c else s.chans i) (hlock : c.lock = some e')
    (hst' : e'.stage = .waking w) (hsec : (s.chans ch).lock = some sec)
    (hst : sec.stage = .claimed w) (hv : Holds t i e v) : ∃ e, Holds s i e v := by
  by_cases hi : i = ch
  · rw [Holds, hi, upd_self hchan, hlock] at hv
    obtain ⟨he, hrec⟩ := hv
    cases he
    rw [hst'] at hrec
    cases hrec
    exact ⟨sec, hi ▸ hsec, by rw [hst]; rfl⟩
  · rw [Holds, upd_other hchan hi] at hv
    exact ⟨e, hv⟩

theorem holds_claim {i : ℕ} {sec e : Sect V} {w v : Waiter} {q : List Waiter} {d : Side}
    (hchan : t.chans = fun i => if i = ch then
      { (s.chans ch).setQueue q d with lock := some { sec with stage := .claimed w } }
      else s.chans i) (hv : Holds t i e v) : (i = ch ∧ v = w) ∨ Holds s i e v := by
  by_cases hi : i = ch
  · rw [Holds, hi, upd_self hchan] at hv
    obtain ⟨he, hrec⟩ := hv
    cases he
    cases hrec
    exact .inl ⟨hi, rfl⟩
  · rw [Holds, upd_other hchan hi] at hv
    exact .inr hv

theorem Attended.step (h : Attended s) (hi : Inv s)
    (htime : (s.fibers f).pc = .selParked → beingServed s f = false) (hm : Move s f t) :
    Attended t := by
  have hlocked : ∀ {ch : ℕ} {e : Sect V}, (s.chans ch).lock = some e → e.fiber = f →
      ∀ w, ¬ (s.fibers f).pc.awaits w := by
    intro ch e hsec hf w
    rw [← hf, hi.locks.holder ch e hsec]
    exact id
  cases hm with
  | call hpc | toScan hpc | draw hpc | retStart hpc | retScan hpc | finishSend hpc
  | finishRecv hpc =>
    exact h.away rfl (fun _ _ _ hw => hw) (h.none_of_pc (by simp [hpc, Pc.awaits]))
      (fun _ _ => rfl) (by rintro ⟨⟩)
  | newPark hpc =>
    exact h.away rfl (fun _ _ _ hw => hw) (h.none_of_pc (by simp [hpc, Pc.awaits]))
      (fun p hp => if_neg fun he => hp (congrArg Park.fiber he)) (by rintro ⟨⟩)
  | evictDone hpc | evictSkip hpc =>
    exact h.away rfl (fun _ _ _ hw => hw) (h.none_of_pc (by simp [hpc, Pc.awaits]))
      (fun _ _ => rfl) fun _ => h.decided f (by rw [hpc]; rfl)
  | sendClosed hat =>
    refine h.away rfl (fun _ _ _ hw => hw) (h.none_of_pc ?_) (fun _ _ => rfl) (by rintro ⟨⟩)
    rcases hat with ⟨hpc, -⟩ | ⟨hpc, -, -⟩ <;> simp [hpc, Pc.awaits]
  | enterHand hat | enterGot hat | enterTake hat =>
    refine h.away rfl (fun _ _ _ => holds_upd rfl fun e he => .inl (by cases he; rfl))
      (h.none_of_pc ?_) (fun _ _ => rfl) (by rintro ⟨⟩)
    rcases hat with ⟨hpc, -⟩ | ⟨hpc, -, -⟩ <;> simp [hpc, Pc.awaits]
  | enterClose hpc =>
    exact h.away rfl (fun _ _ _ => holds_upd rfl fun e he => .inl (by cases he; rfl))
      (h.none_of_pc (by simp [hpc, Pc.awaits])) (fun _ _ => rfl) (by rintro ⟨⟩)
  | bufferSend hsec hf | recvClosed hsec hf | gotDone hsec hf | closeDone hsec hf
  | refuse hsec hf | wakeHand hsec hf | wakeGot hsec hf | nextCase hsec hf | parkPlain hsec hf =>
    exact h.away rfl (fun _ _ _ => holds_upd rfl (free_lock rfl)) (h.none_of_pc (hlocked hsec hf))
      (fun _ _ => rfl) (by rintro ⟨⟩)
  | tombstone hsec hf hst =>
    exact h.stay rfl (fun _ hp => hp) fun i e w hw =>
      .inl ⟨e, holds_upd rfl (fun e he => .inr (by cases he; exact hsec)) hw⟩
  | closeNext hsec hf hst =>
    exact h.stay rfl (fun _ hp => hp) fun i e w hw =>
      .inl ⟨e, holds_upd rfl (fun e he => .inl (by cases he; rw [hst]; rfl)) hw⟩
  | wakeClose hsec =>
    exact h.stay rfl (fun _ hp => hp) fun i e w hw =>
      .inl ⟨e, holds_upd rfl (fun e he => .inl (by cases he; rfl)) hw⟩
  | fillHand hsec hf hst | fillTake hsec hf hst | fillGot hsec hf hst | fillCloseTx hsec hf hst
  | fillCloseRx hsec hf hst =>
    exact h.stay rfl (fun _ hp => hp) fun i e w hw => .inl (holds_fill rfl rfl rfl hsec hst hw)
  | claimPlain hsec hf hst hq hsel =>
    refine h.stay rfl (fun _ hp => hp) fun i e v hv => ?_
    rcases holds_claim rfl hv with ⟨rfl, rfl⟩ | hv
    · have hlink := hi.linked.links i _ v (by rw [hq]; exact List.mem_cons_self)
      refine .inr ⟨hi.linked.named i _ v (by rw [hq]; exact List.mem_cons_self), ?_⟩
      have hpc := Pc.links_plain hlink hsel
      rw [hpc] at hlink ⊢
      exact hlink
    · exact .inl ⟨e, hv⟩
  | @claimSelect ch sec w rest hsec hf hst hq hsel hfired =>
    refine h.stay rfl (fun p hp => ?_) fun i e v hv => ?_
    · show (if p = _ then some _ else s.fired p) ≠ none
      split
      · rintro ⟨⟩
      · exact hp
    · rcases holds_claim rfl hv with ⟨rfl, rfl⟩ | hv
      · have hmem : v ∈ (s.chans i).queue sec.job.side := by
          rw [hq]
          exact List.mem_cons_self
        have hdec := h.decided v.park.fiber
        rw [← hi.linked.park_eq hmem] at hdec
        refine .inr ⟨hi.linked.named i _ v hmem,
          Pc.awaits_of_links (hi.linked.links i _ v hmem) (fun j hpc => ?_) fun k j hpc => ?_⟩
        · exact hdec (by rw [hpc]; rfl) hfired
        · exact hdec (by rw [hpc]; rfl) hfired
      · exact .inl ⟨e, hv⟩
  | resumeSend hpc hop hdir hlock | resumeRecv hpc hop hdir hlock =>
    refine h.away rfl (fun _ _ _ hw => hw) (fun i e w hw hwf => ?_) (fun _ _ => rfl) (by rintro ⟨⟩)
    have := (h.live i e w hw).2
    rw [hwf, hpc] at this
    exact hi.held.none_of_parked hop hlock ⟨i, e, w, hw, this.1, hwf⟩
  | installDone hpc =>
    exact h.advance rfl rfl (fun _ _ _ hw => hw) (fun _ _ _ _ _ ha => by rw [hpc] at ha; exact ha.1)
      (by rintro ⟨⟩)
  | installReady hpc =>
    exact h.advance rfl rfl (fun _ _ _ hw => hw) (fun _ _ _ _ _ ha => by rw [hpc] at ha; exact ha)
      (by rintro ⟨⟩)
  | installPush hpc hcase hlock =>
    exact h.advance rfl rfl (fun _ _ _ => holds_upd rfl fun e he => .inr he)
      (fun _ _ _ _ _ ha => by rw [hpc] at ha; exact ⟨ha.1, Nat.lt_succ_of_lt ha.2⟩) (by rintro ⟨⟩)
  | abortWin hpc hfired =>
    refine h.away rfl (fun _ _ _ hw => hw) (fun i e w hw hwf => ?_)
      (fun p hp => if_neg fun he => hp (congrArg Park.fiber he)) (fun _ => ?_)
    · obtain ⟨-, hpcw⟩ := h.live i e w hw
      have hpark := h.park_eq hw
      rw [hwf] at hpcw hpark
      rw [hpc] at hpcw
      have := hi.held.fired i e w hw hpcw.1
      rw [hpark, hfired] at this
      cases this
    · show (if s.park f = s.park f then some _ else _) ≠ none
      rw [if_pos rfl]
      rintro ⟨⟩
  | abortLost hpc =>
    exact h.advance rfl rfl (fun _ _ _ hw => hw) (fun _ _ _ _ _ ha => by rw [hpc] at ha; exact ha.1)
      (by rintro ⟨⟩)
  | loadFired hpc hfired =>
    exact h.away rfl (fun _ _ _ hw => hw) (h.not_park hi.held (htime hpc)) (fun _ _ => rfl)
      fun _ => by show s.fired (s.park f) ≠ none; rw [hfired]; rintro ⟨⟩
  | loadNone hpc =>
    exact h.advance rfl rfl (fun _ _ _ hw => hw)
      (fun _ _ _ _ _ ha => by rw [hpc] at ha; exact ⟨ha, Nat.zero_le _⟩) (by rintro ⟨⟩)
  | @evictErase why j c hpc hcase hwhy hlock =>
    refine h.advance rfl rfl (fun _ _ _ => holds_upd rfl fun e he => .inr he)
      (fun i e w hw hp ha => ?_) fun hd => ?_
    · rw [hpc] at ha
      cases why with
      | spurious =>
        refine ⟨ha.1, Nat.lt_of_le_of_ne ha.2 fun he => ?_⟩
        obtain ⟨k, hk, hwk⟩ := nameOf_eq (h.live i e w hw).1
        have hf : w.park.fiber = f := congrArg Park.fiber hp
        rw [hf, ← he, hcase] at hk
        cases hk
        have hch := (hi.held.home i e w hw).1
        rw [hwk] at hch
        rw [Holds, ← show c.ch = i from hch, hlock] at hw
        cases hw.1
      | abort => exact ha
      | final k => exact ha
    · rw [hpc]
      cases why with
      | spurious => cases hd
      | abort => rfl
      | final k => rfl
  | @evictRetry why j hpc hcase hwhy =>
    have hnone := h.none_of_end hpc hcase
    obtain hr | hr := retry_cases s f <;> rw [hr] <;>
      exact h.away rfl (fun _ _ _ hw => hw) hnone (fun _ _ => rfl) (by rintro ⟨⟩)
  | evictFired hpc hcase hfired =>
    exact h.away rfl (fun _ _ _ hw => hw) (h.none_of_end hpc hcase) (fun _ _ => rfl)
      fun _ => by show s.fired (s.park f) ≠ none; rw [hfired]; rintro ⟨⟩
  | finishRetry hpc =>
    have hnone := h.none_of_pc (f := f) (by simp [hpc, Pc.awaits])
    obtain hr | hr := retry_cases s f <;> rw [hr] <;>
      exact h.away rfl (fun _ _ _ hw => hw) hnone (fun _ _ => rfl) (by rintro ⟨⟩)

end Stackweave.Channel.Select
