import Stackweave.Channel.Attended

/-!
# A call completes exactly one case

The history of a run lists every value that left a send and every value that
reached a receive. The account of a fiber says what its current call has in
that history, wherever the call is: nothing before it takes a lock, the moved
value inside a section, and in a park what the claimer has written into one of
the records, if any. A returned call then has the one event of the case it
reports, or none.

* `completes_exactly_once`: in every run in which no resumed select loads
  `fired_case` while its claimer is at work.
* `select_returns_early`: without that, a select reports an open channel closed
  and its claimer goes on with the freed record.
-/

namespace Stackweave.Channel.Select

open Transition

variable {V : Type*} {s t : State V} {f g : ℕ} {x : Fiber V} {ch : ℕ} {c c' : Chan V}

/-! ## What a call has done -/

/-- The history of one call. -/
def State.events (s : State V) (f n : ℕ) : List (Event V) :=
  s.hist.filter fun e => e.fiber = f ∧ e.call = n

/-- The history of the call agrees with what it returned. -/
def Completed (s : State V) (f n : ℕ) (op : Op V) : Outcome V → Prop
  | .sent i => ∃ ch v, op.cases[i]? = some ⟨ch, .send v⟩ ∧
      s.events f n = [⟨f, n, i, ch, .tx, some v⟩]
  | .received i p => ∃ ch v, op.cases[i]? = some ⟨ch, .recv⟩ ∧ p = some v ∧
      s.events f n = [⟨f, n, i, ch, .rx, some v⟩]
  | .sendClosed i => ∃ ch v, op.cases[i]? = some ⟨ch, .send v⟩ ∧ (s.chans ch).closed = true ∧
      s.events f n = []
  | .recvClosed i => ∃ ch, op.cases[i]? = some ⟨ch, .recv⟩ ∧ (s.chans ch).closed = true ∧
      s.events f n = []
  | _ => s.events f n = []

theorem Completed.mono {n : ℕ} {op : Op V} {out : Outcome V} (h : Completed s f n op out)
    (hev : t.events f n = s.events f n)
    (hclosed : ∀ i, (s.chans i).closed = true → (t.chans i).closed = true) :
    Completed t f n op out := by
  cases out with
  | sendClosed i =>
    obtain ⟨ch, v, hi, hc, hn⟩ := h
    exact ⟨ch, v, hi, hclosed ch hc, hev.trans hn⟩
  | recvClosed i =>
    obtain ⟨ch, hi, hc, hn⟩ := h
    exact ⟨ch, hi, hclosed ch hc, hev.trans hn⟩
  | sent i =>
    obtain ⟨ch, v, hi, hn⟩ := h
    exact ⟨ch, v, hi, hev.trans hn⟩
  | received i p =>
    obtain ⟨ch, v, hi, hp, hn⟩ := h
    exact ⟨ch, v, hi, hp, hev.trans hn⟩
  | _ => exact hev.trans h

/-- What a section has moved for its own call. -/
def Sect.given (e : Sect V) (ch n : ℕ) : List (Event V) :=
  match e.job, e.stage with
  | .hand v, .waking _ => [⟨e.fiber, n, e.caller.index, ch, .tx, some v⟩]
  | .got p, _ => [⟨e.fiber, n, e.caller.index, ch, .rx, p⟩]
  | _, _ => []

structure Sect.Paid (s : State V) (ch : ℕ) (e : Sect V) : Prop where
  events : s.events e.fiber (s.fibers e.fiber).call = e.given ch (s.fibers e.fiber).call
  value : ∀ p, e.job = .got p → p.isSome
  closed : e.closing = true → (s.chans ch).closed = true

/-- The record is claimed and not written yet. -/
def Claimed (s : State V) (w : Waiter) : Prop :=
  ∃ ch e, (s.chans ch).lock = some e ∧ e.stage = .claimed w

def Queued (s : State V) (w : Waiter) : Prop :=
  w ∈ (s.chans w.ch).queue w.side

/-- What a claimer writes, with what it has done for the call. -/
def Written (s : State V) (w : Waiter) : Dir V → Prop
  | .send v =>
    ((s.records w).sendResult = 0 ∧
        s.events w.park.fiber w.park.call = [w.event (some v)]) ∨
      ((s.records w).sendResult = -1 ∧ (s.chans w.ch).closed = true ∧
        s.events w.park.fiber w.park.call = [])
  | .recv =>
    (∃ v, (s.records w).value = some v ∧ (s.records w).ok = 1 ∧
        s.events w.park.fiber w.park.call = [w.event (some v)]) ∨
      ((s.records w).value = none ∧ (s.records w).ok = 0 ∧ (s.chans w.ch).closed = true ∧
        s.events w.park.fiber w.park.call = [])

/-- The case that the end of a select goes for. -/
def Pc.firing : Pc → Option ℕ
  | .evict (.final k) _ | .finish k => some k
  | _ => none

/-- The records of a park under way. -/
structure Account (s : State V) (f : ℕ) : Prop where
  shape : ∀ k c, (s.fibers f).op.cases[k]? = some c →
    (s.records (s.waiter f k c)).filled = false → s.records (s.waiter f k c) = c.dir.record
  written : ∀ k c, (s.fibers f).op.cases[k]? = some c →
    (s.records (s.waiter f k c)).filled = true → Written s (s.waiter f k c) c.dir
  unpaid : (∀ k c, (s.fibers f).op.cases[k]? = some c →
    (s.records (s.waiter f k c)).filled = false) → s.events f (s.fibers f).call = []
  fired : (s.fibers f).op.isSelect = true → ∀ k c, (s.fibers f).op.cases[k]? = some c →
    (s.records (s.waiter f k c)).filled = true → s.fired (s.park f) = some k
  waiting : ∀ k c, (s.fibers f).op.cases[k]? = some c →
    Queued s (s.waiter f k c) ∨ Claimed s (s.waiter f k c) →
    (s.records (s.waiter f k c)).filled = false
  aborted : ∀ j, (s.fibers f).pc = .evict .abort j → ∀ k c, (s.fibers f).op.cases[k]? = some c →
    (s.records (s.waiter f k c)).filled = false
  due : (s.fibers f).op.isSelect = true → (∀ j, (s.fibers f).pc ≠ .evict .abort j) →
    ∀ k, s.fired (s.park f) = some k → ∃ c, (s.fibers f).op.cases[k]? = some c ∧
      ((s.records (s.waiter f k c)).filled = true ∨ Claimed s (s.waiter f k c))
  final : ∀ k, (s.fibers f).pc.firing = some k → s.fired (s.park f) = some k
  plain : (s.fibers f).op.isSelect = false → ∀ c, (s.fibers f).op.cases[0]? = some c →
    Queued s (s.waiter f 0 c) ∨ (s.records (s.waiter f 0 c)).filled = true ∨
      Claimed s (s.waiter f 0 c)

/-- What the current call of the fiber has done so far. -/
def Standing (s : State V) (f : ℕ) : Prop :=
  match (s.fibers f).pc with
  | .idle | .start | .scan | .tryCase _ _ _ => s.events f (s.fibers f).call = []
  | .locked ch => ∃ e, (s.chans ch).lock = some e ∧ e.fiber = f ∧ e.Paid s ch
  | _ => Account s f

/-- The books of a fiber: this call, those to come and those that returned. -/
structure Ledger (s : State V) (f : ℕ) : Prop where
  standing : Standing s f
  future : ∀ n, (s.fibers f).call < n → s.events f n = []
  returned : ∀ n, n < (s.fibers f).call → s.results f n ≠ none
  results : ∀ n op out, s.results f n = some (op, out) →
    n < (s.fibers f).call ∧ Completed s f n op out

theorem Standing.account (h : Standing s f) (hpc : (s.fibers f).pc.inPark = true) :
    Account s f := by
  unfold Standing at h
  cases hp : (s.fibers f).pc <;> rw [hp] at h hpc <;> first | exact h | cases hpc

theorem Account.standing (h : Account s f) (hpc : (s.fibers f).pc.inPark = true) :
    Standing s f := by
  unfold Standing
  cases hp : (s.fibers f).pc <;> rw [hp] at hpc <;> first | exact h | cases hpc

/-! ## The books of the others -/

/-- The channel looks to `g` as before. -/
structure Chan.Sees (g : ℕ) (c c' : Chan V) : Prop where
  closed : c.closed = true → c'.closed = true
  queue : ∀ d w, w.park.fiber = g → w ∈ c'.queue d → w ∈ c.queue d
  plain : ∀ d w, w.park.fiber = g → w.select = false → w ∈ c.queue d → w ∈ c'.queue d
  claimed : ∀ w, w.park.fiber = g → ((∃ e, c'.lock = some e ∧ e.stage = .claimed w) ↔
    ∃ e, c.lock = some e ∧ e.stage = .claimed w)
  lock : ∀ e, e.fiber = g → c.lock = some e → c'.lock = some e

theorem Chan.Sees.refl (g : ℕ) (c : Chan V) : c.Sees g c :=
  ⟨id, fun _ _ _ => id, fun _ _ _ _ => id, fun _ _ => Iff.rfl, fun _ _ => id⟩

/-- The state looks to `g` as before. -/
structure Same (s t : State V) (g : ℕ) : Prop where
  fiber : t.fibers g = s.fibers g
  events : ∀ n, t.events g n = s.events g n
  records : ∀ w, w.park.fiber = g → t.records w = s.records w
  fired : ∀ p, p.fiber = g → t.fired p = s.fired p
  results : t.results g = s.results g
  chans : ∀ i, (s.chans i).Sees g (t.chans i)

variable {w v : Waiter} {e sec : Sect V} {d : Side} {k : ℕ}

theorem Written.mono {d : Dir V} (h : Written s w d)
    (hrec : t.records w = s.records w)
    (hev : t.events w.park.fiber w.park.call = s.events w.park.fiber w.park.call)
    (hclosed : (s.chans w.ch).closed = true → (t.chans w.ch).closed = true) : Written t w d := by
  unfold Written at h ⊢
  rw [hrec, hev]
  cases d with
  | send v => exact h.imp_right fun ⟨hr, hc, he⟩ => ⟨hr, hclosed hc, he⟩
  | recv => exact h.imp_right fun ⟨hr, ho, hc, he⟩ => ⟨hr, ho, hclosed hc, he⟩

theorem Account.same (h : Account s g) (hs : Same s t g) : Account t g := by
  have hwait : t.waiter g = s.waiter g := funext fun k => waiter_congr hs.fiber k
  have hpark : t.park g = s.park g := by rw [State.park, State.park, hs.fiber]
  have hrec : ∀ k c, t.records (s.waiter g k c) = s.records (s.waiter g k c) :=
    fun k c => hs.records _ rfl
  have hclaimed : ∀ k c, Claimed t (s.waiter g k c) ↔ Claimed s (s.waiter g k c) :=
    fun k c => exists_congr fun i => (hs.chans i).claimed _ rfl
  constructor <;>
    simp only [hs.fiber, hwait, hpark, hrec, hs.fired _ (show (s.park g).fiber = g from rfl),
      hs.events, hclaimed]
  · exact h.shape
  · exact fun k c hc hf =>
      (h.written k c hc hf).mono (hrec k c) (hs.events _) (hs.chans _).closed
  · exact h.unpaid
  · exact h.fired
  · exact fun k c hc hw =>
      h.waiting k c hc (hw.imp_left ((hs.chans _).queue _ (s.waiter g k c) rfl))
  · exact h.aborted
  · exact h.due
  · exact h.final
  · exact fun hop c hc =>
      (h.plain hop c hc).imp_left ((hs.chans _).plain _ (s.waiter g 0 c) rfl hop)

theorem Ledger.same (h : Ledger s g) (hs : Same s t g) : Ledger t g := by
  refine ⟨?_, fun n hn => ?_, fun n hn => ?_, fun n op out hr => ?_⟩
  · have hst := h.standing
    unfold Standing at hst ⊢
    rw [hs.fiber]
    cases hpc : (s.fibers g).pc <;> rw [hpc] at hst
    case locked ch =>
      obtain ⟨e, he, hef, hev, hval, hcl⟩ := hst
      refine ⟨e, (hs.chans ch).lock e hef he, hef, ?_, hval,
        fun hc => (hs.chans ch).closed (hcl hc)⟩
      rw [hef] at hev ⊢
      rw [hs.fiber, hs.events]
      exact hev
    case idle | start | scan | tryCase =>
      rw [hs.events]
      exact hst
    all_goals exact hst.same hs
  · rw [hs.fiber] at hn
    rw [hs.events]
    exact h.future n hn
  · rw [hs.fiber] at hn
    rw [hs.results]
    exact h.returned n hn
  · rw [hs.results] at hr
    obtain ⟨hn, hc⟩ := h.results n op out hr
    rw [hs.fiber]
    exact ⟨hn, hc.mono (hs.events n) fun i => (hs.chans i).closed⟩

/-! ## The books of the fiber that moves -/

/-- What a move of `f` leaves of a channel: nobody's record is claimed or
written, and only `f` itself links or unlinks. -/
structure Chan.Keeps (f : ℕ) (c c' : Chan V) : Prop where
  closed : c.closed = true → c'.closed = true
  queue : ∀ d w, w.park.fiber ≠ f → w ∈ c'.queue d → w ∈ c.queue d
  plain : ∀ d w, w.park.fiber ≠ f → w.select = false → w ∈ c.queue d → w ∈ c'.queue d
  claimed : ∀ w, (∃ e, c'.lock = some e ∧ e.stage = .claimed w) ↔
    ∃ e, c.lock = some e ∧ e.stage = .claimed w
  lock : ∀ e, e.fiber ≠ f → c.lock = some e → c'.lock = some e

theorem Chan.Keeps.refl (f : ℕ) (c : Chan V) : c.Keeps f c :=
  ⟨id, fun _ _ _ => id, fun _ _ _ _ => id, fun _ => Iff.rfl, fun _ _ => id⟩

theorem Chan.Keeps.sees (h : c.Keeps f c') (hg : g ≠ f) : c.Sees g c' :=
  ⟨h.closed, fun d w hw => h.queue d w (hw ▸ hg), fun d w hw => h.plain d w (hw ▸ hg),
    fun w _ => h.claimed w, fun e he => h.lock e (he ▸ hg)⟩

theorem claimed_iff (h : ∀ i, (s.chans i).Keeps f (t.chans i)) (w : Waiter) :
    Claimed t w ↔ Claimed s w :=
  exists_congr fun i => (h i).claimed w

section Log

variable {es : List (Event V)} {n : ℕ}

theorem events_log (h : t.hist = s.hist ++ es) (g n : ℕ) :
    t.events g n = s.events g n ++ es.filter fun e => e.fiber = g ∧ e.call = n := by
  simp [State.events, h]

theorem events_other (h : t.hist = s.hist ++ es)
    (hes : ∀ e ∈ es, ¬ (e.fiber = g ∧ e.call = n)) : t.events g n = s.events g n := by
  rw [events_log h, List.filter_eq_nil_iff.mpr, List.append_nil]
  intro e he
  simpa using hes e he

theorem events_own (h : t.hist = s.hist ++ es)
    (hes : ∀ e ∈ es, e.fiber = f ∧ e.call = n) : t.events f n = s.events f n ++ es := by
  rw [events_log h, List.filter_eq_self.mpr]
  intro e he
  simpa using hes e he

/-- The calls of the fibers in `N` go on, the others see no change. -/
theorem ledger_touch {N : ℕ → Prop} (h : ∀ g, Ledger s g)
    (hcall : ∀ g, (t.fibers g).call = (s.fibers g).call) (hhist : t.hist = s.hist ++ es)
    (hes : ∀ e ∈ es, N e.fiber ∧ e.call = (s.fibers e.fiber).call)
    (hres : t.results = s.results)
    (hclosed : ∀ i, (s.chans i).closed = true → (t.chans i).closed = true)
    (hsame : ∀ g, ¬ N g → t.fibers g = s.fibers g ∧
      (∀ w, w.park.fiber = g → t.records w = s.records w) ∧
      (∀ p, p.fiber = g → t.fired p = s.fired p) ∧ ∀ i, (s.chans i).Sees g (t.chans i))
    (hst : ∀ g, N g → Standing t g) : ∀ g, Ledger t g := by
  intro g
  by_cases hg : N g
  · have hother : ∀ n, n ≠ (s.fibers g).call → t.events g n = s.events g n := by
      refine fun n hn => events_other hhist fun e he hge => hn ?_
      rw [← hge.2, (hes e he).2, hge.1]
    refine ⟨hst g hg, fun n hn => ?_, fun n hn => ?_, fun n op out hr => ?_⟩
    · rw [hcall] at hn
      rw [hother n (Nat.ne_of_gt hn)]
      exact (h g).future n hn
    · rw [hcall] at hn
      rw [hres]
      exact (h g).returned n hn
    · rw [hres] at hr
      obtain ⟨hn, hc⟩ := (h g).results n op out hr
      rw [hcall]
      exact ⟨hn, hc.mono (hother n (Nat.ne_of_lt hn)) hclosed⟩
  · obtain ⟨hfib, hrec, hfired, hchan⟩ := hsame g hg
    refine (h g).same ⟨hfib, fun n => events_other hhist fun e he hge => hg ?_, hrec, hfired,
      by rw [hres], hchan⟩
    exact hge.1 ▸ (hes e he).1

/-- The call goes on. -/
theorem ledger_go (h : ∀ g, Ledger s g)
    (hfib : t.fibers = fun j => if j = f then x else s.fibers j)
    (hcall : x.call = (s.fibers f).call) (hhist : t.hist = s.hist ++ es)
    (hes : ∀ e ∈ es, e.fiber = f ∧ e.call = (s.fibers f).call)
    (hres : t.results = s.results)
    (hrec : ∀ w, w.park.fiber ≠ f → t.records w = s.records w)
    (hfired : ∀ p, p.fiber ≠ f → t.fired p = s.fired p)
    (hchan : ∀ i, (s.chans i).Keeps f (t.chans i)) (hst : Standing t f) : ∀ g, Ledger t g := by
  refine ledger_touch (N := (· = f)) h (fun g => ?_) hhist
    (fun e he => ⟨(hes e he).1, by rw [(hes e he).2, (hes e he).1]⟩) hres
    (fun i => (hchan i).closed)
    (fun g hg => ⟨upd_other hfib hg, fun w hw => hrec w (hw ▸ hg), fun p hp => hfired p (hp ▸ hg),
      fun i => (hchan i).sees hg⟩) fun g hg => hg ▸ hst
  by_cases hg : g = f
  · rw [hg, upd_self hfib, hcall]
  · rw [upd_other hfib hg]

/-- The call returns. -/
theorem ledger_ret {out : Outcome V} (h : ∀ g, Ledger s g)
    (hfib : t.fibers = fun j => if j = f then
      { s.fibers f with call := (s.fibers f).call + 1, pc := .idle } else s.fibers j)
    (hres : t.results = fun g n => if g = f ∧ n = (s.fibers f).call then
      some ((s.fibers f).op, out) else s.results g n)
    (hhist : t.hist = s.hist ++ es)
    (hes : ∀ e ∈ es, e.fiber = f ∧ e.call = (s.fibers f).call)
    (hrec : t.records = s.records) (hfired : t.fired = s.fired)
    (hchan : ∀ i, (s.chans i).Keeps f (t.chans i))
    (hout : Completed t f (s.fibers f).call (s.fibers f).op out) : ∀ g, Ledger t g := by
  intro g
  by_cases hg : g = f
  · subst hg
    have hother : ∀ n, n ≠ (s.fibers g).call → t.events g n = s.events g n := by
      refine fun n hn => events_other hhist fun e he hge => hn ?_
      rw [← hge.2, (hes e he).2]
    have hfut : ∀ n, (s.fibers g).call < n → t.events g n = [] := by
      intro n hn
      rw [hother n (Nat.ne_of_gt hn)]
      exact (h g).future n hn
    refine ⟨?_, fun n hn => ?_, fun n hn => ?_, fun n op out' hr => ?_⟩
    · unfold Standing
      rw [upd_self hfib]
      exact hfut _ (Nat.lt_succ_self _)
    · rw [upd_self hfib] at hn
      exact hfut n (Nat.lt_of_succ_lt hn)
    · rw [upd_self hfib] at hn
      rw [hres]
      show (if _ then _ else _) ≠ none
      split
      case isTrue => rintro ⟨⟩
      case isFalse hne =>
        exact (h g).returned n (Nat.lt_of_le_of_ne (Nat.le_of_lt_succ hn) fun he => hne ⟨rfl, he⟩)
    · rw [hres] at hr
      change (if _ then _ else _) = _ at hr
      rw [upd_self hfib]
      split at hr
      case isTrue he =>
        cases hr
        rw [he.2]
        exact ⟨Nat.lt_succ_self _, hout⟩
      case isFalse =>
        obtain ⟨hn, hc⟩ := (h g).results n op out' hr
        exact ⟨Nat.lt_succ_of_lt hn, hc.mono (hother n (Nat.ne_of_lt hn)) fun i => (hchan i).closed⟩
  · refine (h g).same ⟨upd_other hfib hg, fun n => ?_, fun w _ => by rw [hrec],
      fun p _ => by rw [hfired], ?_, fun i => (hchan i).sees hg⟩
    · exact events_other hhist fun e he hge => hg (hge.1 ▸ (hes e he).1)
    · rw [hres]
      funext n
      exact if_neg fun hne => hg hne.1

end Log

/-! ### Channels that keep what the others see -/

/-- No section on the channel is about to write a record. -/
def Chan.Unclaimed (c : Chan V) : Prop :=
  ∀ e w, c.lock = some e → e.stage ≠ .claimed w

theorem Chan.Unclaimed.of_free (h : c.lock = none) : c.Unclaimed := by
  intro e w he
  rw [h] at he
  cases he

theorem Chan.Unclaimed.of_stage (h : c.lock = some e)
    (hst : ∀ w, e.stage ≠ .claimed w) : c.Unclaimed := by
  intro e' w he
  rw [h] at he
  cases he
  exact hst w

theorem Chan.Keeps.of_unclaimed (h : c.Unclaimed) (h' : c'.Unclaimed)
    (hlock : ∀ e, c.lock = some e → e.fiber = f ∨ c'.lock = some e)
    (hclosed : c.closed = true → c'.closed = true)
    (hq : ∀ d w, w.park.fiber ≠ f → w ∈ c'.queue d → w ∈ c.queue d)
    (hplain : ∀ d w, w.park.fiber ≠ f → w.select = false → w ∈ c.queue d → w ∈ c'.queue d) :
    c.Keeps f c' := by
  refine ⟨hclosed, hq, hplain, fun w => ⟨?_, ?_⟩, fun e hne he => ?_⟩
  · rintro ⟨e, he, hst⟩
    exact absurd hst (h' e w he)
  · rintro ⟨e, he, hst⟩
    exact absurd hst (h e w he)
  · exact (hlock e he).resolve_left hne

theorem keeps_upd (hchan : t.chans = fun i => if i = ch then c else s.chans i)
    (hc : (s.chans ch).Keeps f c) (i : ℕ) : (s.chans i).Keeps f (t.chans i) := by
  by_cases hi : i = ch
  · rw [hi, upd_self hchan]
    exact hc
  · rw [upd_other hchan hi]
    exact .refl f _

/-- The fiber takes the free lock. -/
theorem Chan.Keeps.enter (h : c.lock = none) (he : c'.lock = some e)
    (hst : e.stage = .popping) (hclosed : c.closed = true → c'.closed = true)
    (hq : ∀ d, c'.queue d = c.queue d) : c.Keeps f c' := by
  refine .of_unclaimed (.of_free h) (.of_stage he (by simp [hst])) (fun e' he' => ?_) hclosed
    (fun d w _ hw => hq d ▸ hw) fun d w _ _ hw => (hq d).symm ▸ hw
  rw [h] at he'
  cases he'

/-- The fiber gives the lock back. -/
theorem Chan.Keeps.leave (h : c.lock = some e) (hf : e.fiber = f)
    (hst : ∀ w, e.stage ≠ .claimed w)
    (he : c'.lock = none) (hclosed : c'.closed = c.closed) (hq : ∀ d, c'.queue d = c.queue d) :
    c.Keeps f c' := by
  refine .of_unclaimed (.of_stage h hst) (.of_free he) (fun e' he' => ?_) (fun hc => hclosed ▸ hc)
    (fun d w _ hw => hq d ▸ hw) fun d w _ _ hw => (hq d).symm ▸ hw
  rw [h] at he'
  cases he'
  exact .inl hf

/-- The fiber stays in its section. -/
theorem Chan.Keeps.stay {e' : Sect V} (h : c.lock = some e) (hst : ∀ w, e.stage ≠ .claimed w)
    (he : c'.lock = some e') (hst' : ∀ w, e'.stage ≠ .claimed w) (hf : e.fiber = f)
    (hclosed : c'.closed = c.closed)
    (hq : ∀ d w, w.park.fiber ≠ f → w ∈ c'.queue d → w ∈ c.queue d)
    (hplain : ∀ d w, w.park.fiber ≠ f → w.select = false → w ∈ c.queue d → w ∈ c'.queue d) :
    c.Keeps f c' := by
  refine .of_unclaimed (.of_stage h hst) (.of_stage he hst') (fun e'' he'' => ?_)
    (fun hc => hclosed ▸ hc) hq hplain
  rw [h] at he''
  cases he''
  exact .inl hf

theorem mem_setQueue_of {q : List Waiter} {e : Side}
    (hq : w ∈ c.queue d → w ∈ q) (h : w ∈ c.queue e) : w ∈ (c.setQueue q d).queue e := by
  by_cases he : e = d
  · subst he
    rw [setQueue_queue]
    exact hq h
  · rw [setQueue_queue_ne _ _ he]
    exact h

theorem queued_push
    (hchan : t.chans = fun i => if i = ch then c else s.chans i)
    (hq : ∀ e, c.queue e = ((s.chans ch).setQueue ((s.chans ch).queue d ++ [v]) d).queue e)
    (hw : Queued t w) : Queued s w ∨ w = v := by
  unfold Queued at hw ⊢
  by_cases hi : w.ch = ch
  · rw [hi, upd_self hchan, hq] at hw
    rw [hi]
    exact mem_setQueue_push hw
  · rw [upd_other hchan hi] at hw
    exact .inl hw

theorem queued_of_push
    (hchan : t.chans = fun i => if i = ch then c else s.chans i)
    (hq : ∀ e, c.queue e = ((s.chans ch).setQueue ((s.chans ch).queue d ++ [v]) d).queue e)
    (hch : v.ch = ch) (hd : v.side = d) : Queued t v := by
  rw [Queued, hch, upd_self hchan, hq, hd, setQueue_queue]
  exact List.mem_append_right _ List.mem_cons_self

/-- The fiber links a record of its own. -/
theorem Chan.Keeps.push (h : c.Unclaimed) (hv : v.park.fiber = f)
    (hown : ∀ e, c.lock = some e → e.fiber = f) (hlock : c'.lock = none)
    (hclosed : c'.closed = c.closed)
    (hq : ∀ e, c'.queue e = (c.setQueue (c.queue d ++ [v]) d).queue e) : c.Keeps f c' := by
  refine .of_unclaimed h (.of_free hlock) (fun e he => .inl (hown e he))
    (fun hc => hclosed.trans hc) (fun e w hw hm => ?_) fun e w _ _ hm => ?_
  · rw [hq] at hm
    exact (mem_setQueue_push hm).resolve_right fun he => hw (he ▸ hv)
  · rw [hq]
    exact mem_setQueue_of (List.mem_append_left _) hm

/-- The fiber unlinks a record of its own. -/
theorem Chan.Keeps.erase (h : c.lock = none) (hv : v.park.fiber = f) :
    c.Keeps f (c.setQueue ((c.queue d).erase v) d) := by
  refine .of_unclaimed (.of_free h) (.of_free h) (fun e he => .inr he) id (fun e w _ hm => ?_)
    fun e w hw _ hm => ?_
  · exact (setQueue_sublist List.erase_sublist e).subset hm
  · refine mem_setQueue_of (fun hm => (List.mem_erase_of_ne ?_).mpr hm) hm
    rintro rfl
    exact hw hv

/-! ### A park under way -/

/-- A park that nobody has claimed yet. -/
theorem Account.fresh (hrec : ∀ k c, (s.fibers f).op.cases[k]? = some c →
      s.records (s.waiter f k c) = c.dir.record)
    (hev : s.events f (s.fibers f).call = [])
    (hpc : ∀ why j, (s.fibers f).pc ≠ .evict why j) (hfin : ∀ k, (s.fibers f).pc ≠ .finish k)
    (hfired : (s.fibers f).op.isSelect = true → s.fired (s.park f) = none)
    (hplain : (s.fibers f).op.isSelect = false → ∀ c, (s.fibers f).op.cases[0]? = some c →
      Queued s (s.waiter f 0 c)) : Account s f := by
  have hno : ∀ k c, (s.fibers f).op.cases[k]? = some c →
      (s.records (s.waiter f k c)).filled = false := by
    intro k c hc
    rw [hrec k c hc]
    cases c.dir <;> rfl
  refine ⟨fun k c hc _ => hrec k c hc, fun k c hc hf => ?_, fun _ => hev, fun _ k c hc hf => ?_,
    fun k c hc _ => hno k c hc, fun _ _ => hno, fun hs _ k hk => ?_, fun k hk => ?_,
    fun hs c hc => .inl (hplain hs c hc)⟩
  · rw [hno k c hc] at hf
    cases hf
  · rw [hno k c hc] at hf
    cases hf
  · rw [hfired hs] at hk
    cases hk
  · cases hp : (s.fibers f).pc with
    | evict why j => exact absurd hp (hpc why j)
    | finish k => exact absurd hp (hfin k)
    | _ =>
      rw [hp] at hk
      cases hk

theorem Op.cases_plain {op : Op V} {k' : ℕ} {c c' : Case V} (h : op.isSelect = false)
    (hk : op.cases[k]? = some c) (hk' : op.cases[k']? = some c') : k = k' := by
  have hlt := (List.getElem?_eq_some_iff.mp hk).1
  have hlt' := (List.getElem?_eq_some_iff.mp hk').1
  cases op with
  | plain d b =>
    change k < 1 at hlt
    change k' < 1 at hlt'
    omega
  | close ch => exact absurd hlt (Nat.not_lt_zero k)
  | select cs d => cases h

/-- A plain call that has just joined its queue. -/
theorem Account.parked {e : Case V} {b : Bool} (hop : (s.fibers f).op = .plain e b)
    (hpc : (s.fibers f).pc = .parked) (hrec : s.records (s.waiter f 0 e) = e.dir.record)
    (hq : Queued s (s.waiter f 0 e)) (hev : s.events f (s.fibers f).call = []) :
    Account s f := by
  have hcase : ∀ k c, (s.fibers f).op.cases[k]? = some c → k = 0 ∧ c = e := by
    intro k c hc
    have he : (s.fibers f).op.cases[0]? = some e := by rw [hop]; rfl
    have hk : k = 0 := Op.cases_plain (by rw [hop]; rfl) hc he
    subst hk
    rw [hop] at hc
    cases hc
    exact ⟨rfl, rfl⟩
  refine .fresh (fun k c hc => ?_) hev (by simp [hpc]) (by simp [hpc]) (fun hs => ?_)
    fun _ c hc => ?_
  · obtain ⟨rfl, rfl⟩ := hcase k c hc
    exact hrec
  · rw [hop] at hs
    cases hs
  · obtain ⟨-, rfl⟩ := hcase 0 c hc
    exact hq

/-- A select moves on within its park. -/
theorem Account.advance {pc : Pc} (h : Account s f)
    (hfib : t.fibers = fun j => if j = f then { s.fibers f with pc := pc } else s.fibers j)
    (hhist : t.hist = s.hist) (hrec : t.records = s.records) (hfired : t.fired = s.fired)
    (hchan : ∀ i, (s.chans i).Keeps f (t.chans i))
    (hq : ∀ k c, (s.fibers f).op.cases[k]? = some c → Queued t (s.waiter f k c) →
      Queued s (s.waiter f k c) ∨ (s.records (s.waiter f k c)).filled = false)
    (hsel : (s.fibers f).op.isSelect = true)
    (habort : (∃ j, pc = .evict .abort j) ↔ ∃ j, (s.fibers f).pc = .evict .abort j)
    (hfinal : ∀ k, pc.firing = some k → s.fired (s.park f) = some k) : Account t f := by
  have hwait : t.waiter f = s.waiter f := funext fun k => waiter_goto hfib f k
  have hpark : t.park f = s.park f := by simp only [State.park, upd_self hfib]
  have hev : t.events = s.events := by
    funext g n
    rw [State.events, State.events, hhist]
  constructor <;> simp only [upd_self hfib, hwait, hpark, hrec, hfired, hev, claimed_iff hchan]
  · exact h.shape
  · exact fun k c hc hf =>
      (h.written k c hc hf).mono (by rw [hrec]) (by rw [hev]) (hchan _).closed
  · exact h.unpaid
  · exact h.fired
  · rintro k c hc (hw | hw)
    · rcases hq k c hc hw with hw | hno
      · exact h.waiting k c hc (.inl hw)
      · exact hno
    · exact h.waiting k c hc (.inr hw)
  · intro j hj
    obtain ⟨j, hj⟩ := habort.mp ⟨j, hj⟩
    exact h.aborted j hj
  · refine fun hs hne => h.due hs fun j hj => ?_
    obtain ⟨j, hj⟩ := habort.mpr ⟨j, hj⟩
    exact hne j hj
  · exact hfinal
  · intro hs
    rw [hsel] at hs
    cases hs

/-- A park that has not fired has nothing written. -/
theorem Account.unfilled (h : Account s f) (hsel : (s.fibers f).op.isSelect = true)
    (hfired : s.fired (s.park f) = none) (k : ℕ) (c : Case V)
    (hc : (s.fibers f).op.cases[k]? = some c) :
    (s.records (s.waiter f k c)).filled = false := by
  by_contra hf
  have := h.fired hsel k c hc (Bool.not_eq_false _ ▸ hf)
  rw [hfired] at this
  cases this

/-- An install gives up before anybody claimed its park. -/
theorem Account.abort (h : Account s f)
    (hfib : t.fibers = fun j => if j = f then { s.fibers f with pc := .evict .abort 0 }
      else s.fibers j)
    (hhist : t.hist = s.hist) (hrec : t.records = s.records)
    (hsel : (s.fibers f).op.isSelect = true) (hfired : s.fired (s.park f) = none) :
    Account t f := by
  have hwait : t.waiter f = s.waiter f := funext fun k => waiter_goto hfib f k
  have hno := h.unfilled hsel hfired
  have hev : t.events = s.events := by
    funext g n
    rw [State.events, State.events, hhist]
  constructor <;> simp only [upd_self hfib, hwait, hrec, hev]
  · exact h.shape
  · intro k c hc hf
    rw [hno k c hc] at hf
    cases hf
  · exact h.unpaid
  · intro _ k c hc hf
    rw [hno k c hc] at hf
    cases hf
  · exact fun k c hc _ => hno k c hc
  · exact fun _ _ => hno
  · exact fun _ hne => absurd rfl (hne 0)
  · rintro _ ⟨⟩
  · intro hs
    rw [hsel] at hs
    cases hs

/-- A queued record of the park is claimed. -/
theorem Account.claim (h : Account s g) (hname : s.nameOf g w.case = some w)
    (hq : Queued s w) (hfib : t.fibers = s.fibers) (hhist : t.hist = s.hist)
    (hrec : t.records = s.records)
    (hclosed : ∀ i, (s.chans i).closed = true → (t.chans i).closed = true)
    (hclaimed : ∀ v, Claimed t v ↔ v = w ∨ Claimed s v) (hqt : ∀ v, Queued t v → Queued s v)
    (hqs : ∀ v, Queued s v → v ≠ w → Queued t v)
    (hfired : ((s.fibers g).op.isSelect = true ∧ s.fired (s.park g) = none ∧
        t.fired (s.park g) = some w.case) ∨
      ((s.fibers g).op.isSelect = false ∧ t.fired = s.fired)) : Account t g := by
  obtain ⟨c, hc, hwc⟩ := nameOf_eq hname
  have hwait : t.waiter g = s.waiter g := funext fun k => waiter_congr (congrFun hfib g) k
  have hpark : t.park g = s.park g := by rw [State.park, State.park, hfib]
  have hev : t.events = s.events := by
    funext g n
    rw [State.events, State.events, hhist]
  constructor <;> simp only [hfib, hwait, hpark, hrec, hev, hclaimed]
  · exact h.shape
  · exact fun k c hc hf =>
      (h.written k c hc hf).mono (by rw [hrec]) (by rw [hev]) (hclosed _)
  · exact h.unpaid
  · intro hsel k c hc hf
    rcases hfired with ⟨-, hnone, -⟩ | ⟨hplain, -⟩
    · rw [h.unfilled hsel hnone k c hc] at hf
      cases hf
    · rw [hsel] at hplain
      cases hplain
  · rintro k e he (hv | hv | hv)
    · exact h.waiting k e he (.inl (hqt _ hv))
    · exact h.waiting k e he (.inl (hv ▸ hq))
    · exact h.waiting k e he (.inr hv)
  · exact h.aborted
  · intro hsel hpc k hk
    rcases hfired with ⟨-, -, hsome⟩ | ⟨hplain, -⟩
    · rw [hsome] at hk
      cases hk
      exact ⟨c, hc, .inr (.inl hwc.symm)⟩
    · rw [hsel] at hplain
      cases hplain
  · intro k hk
    have hs := h.final k hk
    rcases hfired with ⟨-, hnone, -⟩ | ⟨-, hsame⟩
    · rw [hnone] at hs
      cases hs
    · rw [hsame]
      exact hs
  · intro hplain e he
    rcases h.plain hplain e he with hw | hf | hw
    · by_cases hne : s.waiter g 0 e = w
      · exact .inr (.inr (.inl hne))
      · exact .inl (hqs _ hw hne)
    · exact .inr (.inl hf)
    · exact .inr (.inr (.inr hw))

/-- While a record of the park is claimed, none is written. -/
theorem Account.unwritten (h : Account s g) (hname : s.nameOf g w.case = some w)
    (hclaimed : Claimed s w) (hfired : w.select = true → s.fired w.park = some w.case) (k : ℕ)
    (c : Case V) (hc : (s.fibers g).op.cases[k]? = some c) :
    (s.records (s.waiter g k c)).filled = false := by
  obtain ⟨e, he, hwe⟩ := nameOf_eq hname
  by_contra hf
  have hf : (s.records (s.waiter g k c)).filled = true := Bool.not_eq_false _ ▸ hf
  have hk : k = w.case := by
    cases hsel : (s.fibers g).op.isSelect with
    | true =>
      have h1 := h.fired hsel k c hc hf
      have h2 := hfired (by rw [hwe]; exact hsel)
      rw [hwe] at h2
      rw [show s.fired (s.park g) = some w.case from h2] at h1
      exact (Option.some.inj h1).symm
    | false => exact Op.cases_plain hsel hc he
  subst hk
  rw [he] at hc
  cases hc
  rw [h.waiting w.case c he (.inr (hwe ▸ hclaimed))] at hf
  cases hf

/-- The claimed record of the park is written. -/
theorem Account.fill {c : Case V} {r : Record V} (h : Account s g)
    (hc : (s.fibers g).op.cases[w.case]? = some c) (hwc : w = s.waiter g w.case c)
    (hclaimed : Claimed s w) (hfired : w.select = true → s.fired w.park = some w.case)
    (hnq : ¬ Queued s w) (hpc : ∀ j, (s.fibers g).pc ≠ .evict .abort j)
    (hfib : t.fibers = s.fibers) (hfired' : t.fired = s.fired)
    (hrec : t.records = fun v => if v = w then r else s.records v) (hfill : r.filled = true)
    (hct : ∀ v, Claimed t v ↔ v ≠ w ∧ Claimed s v) (hqt : ∀ v, Queued t v ↔ Queued s v)
    (hw : Written t w c.dir) : Account t g := by
  have hwait : t.waiter g = s.waiter g := funext fun k => waiter_congr (congrFun hfib g) k
  have hpark : t.park g = s.park g := by rw [State.park, State.park, hfib]
  have hname : s.nameOf g w.case = some w := by
    rw [State.nameOf, hc, Option.map_some, ← hwc]
  have hno := h.unwritten hname hclaimed hfired
  have hrw : t.records w = r := by simp [hrec]
  have hrv : ∀ {v}, v ≠ w → t.records v = s.records v := fun hv => by simp [hrec, hv]
  have hcase : ∀ {k e}, (s.fibers g).op.cases[k]? = some e → s.waiter g k e = w →
      k = w.case ∧ e = c := by
    intro k e he hwe
    have hk : k = w.case := congrArg Waiter.case hwe
    subst hk
    rw [hc] at he
    cases he
    exact ⟨rfl, rfl⟩
  have hkept : ∀ v, (s.records v).filled = true ∨ Claimed s v →
      (t.records v).filled = true ∨ Claimed t v := by
    intro v hv
    by_cases hvw : v = w
    · rw [hvw, hrw]
      exact .inl hfill
    · rw [hrv hvw, hct]
      exact hv.imp_right fun hv => ⟨hvw, hv⟩
  constructor <;> simp only [hfib, hwait, hpark, hfired']
  · intro k e he hf
    by_cases hwe : s.waiter g k e = w
    · rw [hwe, hrw, hfill] at hf
      cases hf
    · rw [hrv hwe] at hf ⊢
      exact h.shape k e he hf
  · intro k e he hf
    by_cases hwe : s.waiter g k e = w
    · rw [hwe, (hcase he hwe).2]
      exact hw
    · rw [hrv hwe, hno k e he] at hf
      cases hf
  · intro hall
    have := hall w.case c hc
    rw [← hwc, hrw, hfill] at this
    cases this
  · intro hsel k e he hf
    by_cases hwe : s.waiter g k e = w
    · rw [(hcase he hwe).1]
      have := hfired (by rw [hwc]; exact hsel)
      rw [hwc] at this
      exact this
    · rw [hrv hwe, hno k e he] at hf
      cases hf
  · intro k e he hv
    rw [hqt, hct] at hv
    have hne : s.waiter g k e ≠ w := by
      rintro hwe
      rcases hv with hv | ⟨hv, -⟩
      · exact hnq (hwe ▸ hv)
      · exact hv hwe
    rw [hrv hne]
    exact hno k e he
  · exact fun j hj => absurd hj (hpc j)
  · intro hsel hpc k hk
    obtain ⟨e, he, hv⟩ := h.due hsel hpc k hk
    exact ⟨e, he, hkept _ hv⟩
  · exact h.final
  · intro hplain e he
    rcases h.plain hplain e he with hv | hv
    · exact .inl ((hqt _).mpr hv)
    · exact .inr (hkept _ hv)

/-! ### A section claims and writes -/

theorem claimed_claim {q : List Waiter}
    (hsec : (s.chans ch).lock = some sec) (hst : sec.stage = .popping)
    (hchan : t.chans = fun i => if i = ch then
      { (s.chans ch).setQueue q d with lock := some { sec with stage := .claimed w } }
      else s.chans i) (v : Waiter) : Claimed t v ↔ v = w ∨ Claimed s v := by
  constructor
  · rintro ⟨i, e, he, hv⟩
    by_cases hi : i = ch
    · rw [hi, upd_self hchan] at he
      cases he
      cases hv
      exact .inl rfl
    · rw [upd_other hchan hi] at he
      exact .inr ⟨i, e, he, hv⟩
  · rintro (rfl | ⟨i, e, he, hv⟩)
    · exact ⟨ch, _, by rw [upd_self hchan], rfl⟩
    · have hi : i ≠ ch := by
        rintro rfl
        rw [hsec] at he
        cases he
        rw [hst] at hv
        cases hv
      exact ⟨i, e, by rw [upd_other hchan hi]; exact he, hv⟩

theorem claimed_fill {e' : Sect V} (hh : Held s)
    (hsec : (s.chans ch).lock = some sec) (hst : sec.stage = .claimed w)
    (hchan : t.chans = fun i => if i = ch then c else s.chans i) (hlock : c.lock = some e')
    (hst' : e'.stage = .waking w) (v : Waiter) : Claimed t v ↔ v ≠ w ∧ Claimed s v := by
  constructor
  · rintro ⟨i, e, he, hv⟩
    have hi : i ≠ ch := by
      rintro rfl
      rw [upd_self hchan, hlock] at he
      cases he
      rw [hst'] at hv
      cases hv
    rw [upd_other hchan hi] at he
    refine ⟨?_, i, e, he, hv⟩
    rintro rfl
    exact hi ((hh.home i e v ⟨he, by rw [hv]; rfl⟩).1.symm.trans
      (hh.home ch sec v ⟨hsec, by rw [hst]; rfl⟩).1)
  · rintro ⟨hne, i, e, he, hv⟩
    have hi : i ≠ ch := by
      rintro rfl
      rw [hsec] at he
      cases he
      rw [hst] at hv
      cases hv
      exact hne rfl
    exact ⟨i, e, by rw [upd_other hchan hi]; exact he, hv⟩

theorem Sect.given_nil {n : ℕ} (hst : e.stage = .popping)
    (hjob : e.job = .take ∨ ∃ v, e.job = .hand v) : e.given ch n = [] := by
  rcases hjob with hjob | ⟨v, hjob⟩ <;> simp [Sect.given, hjob, hst]

theorem Ledger.paid (h : Ledger s sec.fiber) (hk : Locks s)
    (hsec : (s.chans ch).lock = some sec) : sec.Paid s ch := by
  have hst := h.standing
  unfold Standing at hst
  rw [hk.holder ch sec hsec] at hst
  obtain ⟨e, he, -, hpaid⟩ := hst
  rw [hsec] at he
  cases he
  exact hpaid

/-- The fiber goes on in its section as `e`. -/
theorem Sect.Paid.standing (h : e.Paid t ch) (hlock : (t.chans ch).lock = some e)
    (hpc : (t.fibers e.fiber).pc = .locked ch) : Standing t e.fiber := by
  unfold Standing
  rw [hpc]
  exact ⟨e, hlock, rfl, h⟩

theorem ledger_claim {rest : List Waiter} (h : ∀ g, Ledger s g)
    (hi : Inv s) (hsec : (s.chans ch).lock = some sec) (hst : sec.stage = .popping)
    (hq : (s.chans ch).queue sec.job.side = w :: rest)
    (hchan : t.chans = fun i => if i = ch then
      { (s.chans ch).setQueue rest sec.job.side with
        lock := some { sec with stage := .claimed w } } else s.chans i)
    (hfib : t.fibers = s.fibers) (hhist : t.hist = s.hist) (hrec : t.records = s.records)
    (hres : t.results = s.results)
    (hfired : (w.select = true ∧ s.fired w.park = none ∧
        t.fired = fun p => if p = w.park then some w.case else s.fired p) ∨
      (w.select = false ∧ t.fired = s.fired)) : ∀ g, Ledger t g := by
  have hmem : w ∈ (s.chans ch).queue sec.job.side := by
    rw [hq]
    exact List.mem_cons_self
  have hpc := hi.locks.holder ch sec hsec
  have hlink := hi.linked.links ch _ w hmem
  have hpark := hi.linked.park_eq hmem
  have hname := hi.linked.named ch _ w hmem
  obtain ⟨hch, hside⟩ := hi.linked.home ch _ w hmem
  obtain ⟨k, hk, hwk⟩ := nameOf_eq hname
  have hsel : (s.fibers w.park.fiber).op.isSelect = w.select := by
    conv_rhs => rw [hwk]
    rfl
  have hsub : rest.Sublist ((s.chans ch).queue sec.job.side) := by
    rw [hq]
    exact List.sublist_cons_self _ _
  have hrest : ∀ v ∈ (s.chans ch).queue sec.job.side, v ≠ w → v ∈ rest := by
    intro v hv hne
    rw [hq] at hv
    exact (List.mem_cons.mp hv).resolve_left hne
  have hclosed : ∀ i, (t.chans i).closed = (s.chans i).closed := by
    intro i
    by_cases hic : i = ch
    · rw [hic, upd_self hchan]
      rfl
    · rw [upd_other hchan hic]
  have hev : t.events = s.events := by
    funext g n
    rw [State.events, State.events, hhist]
  have hlog : t.hist = s.hist ++ [] := by rw [hhist, List.append_nil]
  refine ledger_touch (N := fun j => j = sec.fiber ∨ j = w.park.fiber) h
    (fun g => by rw [hfib]) hlog (by rintro _ ⟨⟩) hres
    (fun i hc => (hclosed i).trans hc) (fun g hg => ?_) (fun g hg => ?_)
  · rw [not_or] at hg
    refine ⟨by rw [hfib], fun v _ => by rw [hrec], fun p hp => ?_, fun i => ?_⟩
    · rcases hfired with ⟨-, -, hset⟩ | ⟨-, hsame⟩
      · rw [hset]
        exact if_neg fun he => hg.2 (hp ▸ congrArg Park.fiber he)
      · rw [hsame]
    · by_cases hic : i = ch
      · rw [hic, upd_self hchan]
        have hne : ∀ v : Waiter, v.park.fiber = g → v ≠ w := by
          rintro v rfl rfl
          exact hg.2 rfl
        refine ⟨id, fun d v _ hv => (setQueue_sublist hsub d).subset hv,
          fun d v hvg _ hv => mem_setQueue_of (fun hv => hrest v hv (hne v hvg)) hv,
          fun v hvg => ⟨?_, ?_⟩, fun e he hlock => ?_⟩
        · rintro ⟨e, he, hv⟩
          cases he
          cases hv
          exact absurd rfl (hne _ hvg)
        · rintro ⟨e, he, hv⟩
          rw [hsec] at he
          cases he
          rw [hst] at hv
          cases hv
        · rw [hsec] at hlock
          cases hlock
          exact absurd he.symm hg.1
      · rw [upd_other hchan hic]
        exact .refl g _
  · rcases hg with rfl | rfl
    · obtain ⟨hpaid, hval, hcl⟩ := (h sec.fiber).paid hi.locks hsec
      have hnew : Sect.Paid t ch { sec with stage := .claimed w } := by
        refine ⟨?_, hval, fun hc => (hclosed ch).trans (hcl hc)⟩
        rw [hev, hfib]
        refine hpaid.trans ?_
        unfold Sect.given
        rw [hst]
        cases sec.job <;> rfl
      exact hnew.standing (by rw [upd_self hchan]) (by rw [hfib]; exact hpc)
    · have hin : (s.fibers w.park.fiber).pc.inPark = true := (Pc.links_inPark hlink).2
      refine Account.standing ?_ (by rw [hfib]; exact hin)
      have hacc := (h w.park.fiber).standing.account hin
      have hqueue : ∀ v, Queued t v → Queued s v := by
        intro v hv
        unfold Queued at hv ⊢
        by_cases hic : v.ch = ch
        · rw [hic, upd_self hchan] at hv
          rw [hic]
          exact (setQueue_sublist hsub _).subset hv
        · rwa [upd_other hchan hic] at hv
      refine hacc.claim hname (by rw [Queued, hch, hside]; exact hmem) hfib hhist hrec
        (fun i hc => (hclosed i).trans hc) (claimed_claim hsec hst hchan) hqueue
        (fun v hv hne => ?_) ?_
      · unfold Queued at hv ⊢
        by_cases hic : v.ch = ch
        · rw [hic, upd_self hchan]
          rw [hic] at hv
          exact mem_setQueue_of (fun hv => hrest v hv hne) hv
        · rwa [upd_other hchan hic]
      · rw [hsel, ← hpark]
        rcases hfired with ⟨hs, hnone, hset⟩ | hplain
        · exact .inl ⟨hs, hnone, by rw [hset]; exact if_pos rfl⟩
        · exact .inr hplain

/-- What a section knows of the record that it is about to write. -/
theorem fill_facts (h : ∀ g, Ledger s g) (hi : Inv s)
    (ha : Attended s) (hsec : (s.chans ch).lock = some sec) (hst : sec.stage = .claimed w) :
    w.park.fiber ≠ sec.fiber ∧ w.ch = ch ∧ sec.Paid s ch ∧
      w.park.call = (s.fibers w.park.fiber).call ∧ s.events w.park.fiber w.park.call = [] ∧
      ∃ c, (s.fibers w.park.fiber).op.cases[w.case]? = some c ∧
        w = s.waiter w.park.fiber w.case c ∧ s.records w = c.dir.record ∧
        c.dir.side = sec.job.side := by
  have hw : Holds s ch sec w := ⟨hsec, by rw [hst]; rfl⟩
  have hpc := hi.locks.holder ch sec hsec
  obtain ⟨hname, haw⟩ := ha.live ch sec w hw
  obtain ⟨c, hc, hwc⟩ := nameOf_eq hname
  obtain ⟨hch, hside⟩ := hi.held.home ch sec w hw
  have hcall : w.park.call = (s.fibers w.park.fiber).call := congrArg Park.call (ha.park_eq hw)
  have hacc := (h w.park.fiber).standing.account (Pc.awaits_inPark haw)
  have hclaimed : Claimed s w := ⟨ch, sec, hsec, hst⟩
  have hno := hacc.unwritten hname hclaimed (hi.held.fired ch sec w hw)
  refine ⟨fun he => ?_, hch, (h sec.fiber).paid hi.locks hsec, hcall, ?_, c, hc, hwc, ?_, ?_⟩
  · rw [he, hpc] at haw
    exact haw
  · rw [hcall]
    exact hacc.unpaid hno
  · conv_lhs => rw [hwc]
    exact hacc.shape w.case c hc (hno w.case c hc)
  · rw [← hside, hwc]
    rfl

theorem ledger_fill {e' : Sect V} {r : Record V} {es : List (Event V)}
    (h : ∀ g, Ledger s g) (hi : Inv s) (ha : Attended s) (hsec : (s.chans ch).lock = some sec)
    (hst : sec.stage = .claimed w) (hfib : t.fibers = s.fibers)
    (hchan : t.chans = fun i => if i = ch then c else s.chans i) (hlock : c.lock = some e')
    (hst' : e'.stage = .waking w) (hf' : e'.fiber = sec.fiber)
    (hclosed : c.closed = (s.chans ch).closed) (hq : ∀ d, c.queue d = (s.chans ch).queue d)
    (hrec : t.records = fun v => if v = w then r else s.records v) (hfill : r.filled = true)
    (hfired : t.fired = s.fired) (hres : t.results = s.results) (hhist : t.hist = s.hist ++ es)
    (hes : ∀ e ∈ es, (e.fiber = sec.fiber ∧ e.call = (s.fibers sec.fiber).call) ∨
      (e.fiber = w.park.fiber ∧ e.call = w.park.call))
    (hown : e'.Paid t ch)
    (hw : ∀ c, (s.fibers w.park.fiber).op.cases[w.case]? = some c → s.records w = c.dir.record →
      c.dir.side = sec.job.side → Written t w c.dir) : ∀ g, Ledger t g := by
  have hholds : Holds s ch sec w := ⟨hsec, by rw [hst]; rfl⟩
  have hpc := hi.locks.holder ch sec hsec
  obtain ⟨hname, haw⟩ := ha.live ch sec w hholds
  obtain ⟨hne, hch, -, hcall, -, k, hk, hwk, hshape, hside⟩ := fill_facts h hi ha hsec hst
  have hclosed' : ∀ i, (t.chans i).closed = (s.chans i).closed := by
    intro i
    by_cases hic : i = ch
    · rw [hic, upd_self hchan, hclosed]
    · rw [upd_other hchan hic]
  have hqueue : ∀ v, Queued t v ↔ Queued s v := by
    intro v
    unfold Queued
    by_cases hic : v.ch = ch
    · rw [hic, upd_self hchan, hq]
    · rw [upd_other hchan hic]
  refine ledger_touch (N := fun j => j = sec.fiber ∨ j = w.park.fiber) h (fun g => by rw [hfib])
    hhist (fun e he => ?_) hres (fun i hc => (hclosed' i).trans hc) (fun g hg => ?_)
    (fun g hg => ?_)
  · rcases hes e he with ⟨hf, hn⟩ | ⟨hf, hn⟩
    · exact ⟨.inl hf, by rw [hn, hf]⟩
    · exact ⟨.inr hf, by rw [hn, hf, hcall]⟩
  · rw [not_or] at hg
    have hvw : ∀ v : Waiter, v.park.fiber = g → v ≠ w := by
      rintro v rfl rfl
      exact hg.2 rfl
    refine ⟨by rw [hfib], fun v hv => ?_, fun p _ => by rw [hfired], fun i => ?_⟩
    · rw [hrec]
      exact if_neg (hvw v hv)
    · by_cases hic : i = ch
      · rw [hic, upd_self hchan]
        refine ⟨fun hc => hclosed.trans hc, fun d v _ hv => hq d ▸ hv,
          fun d v _ _ hv => (hq d).symm ▸ hv, fun v hvg => ⟨?_, ?_⟩, fun e he hlock' => ?_⟩
        · rintro ⟨e, he, hv⟩
          rw [hlock] at he
          cases he
          rw [hst'] at hv
          cases hv
        · rintro ⟨e, he, hv⟩
          rw [hsec] at he
          cases he
          rw [hst] at hv
          cases hv
          exact absurd rfl (hvw _ hvg)
        · rw [hsec] at hlock'
          cases hlock'
          exact absurd he.symm hg.1
      · rw [upd_other hchan hic]
        exact .refl g _
  · rcases hg with rfl | rfl
    · rw [← hf']
      exact hown.standing (by rw [upd_self hchan, hlock]) (by rw [hfib, hf']; exact hpc)
    · have hin := Pc.awaits_inPark haw
      refine Account.standing ?_ (by rw [hfib]; exact hin)
      have hacc := (h w.park.fiber).standing.account hin
      refine hacc.fill hk hwk ⟨ch, sec, hsec, hst⟩ (hi.held.fired ch sec w hholds) ?_ ?_ hfib
        hfired hrec hfill (claimed_fill hi.held hsec hst hchan hlock hst') hqueue
        (hw k hk hshape hside)
      · rw [Queued, hch]
        exact hi.held.out ch sec w hholds
      · intro j hj
        rw [hj] at haw
        exact haw

/-! ### A park comes to its end -/

theorem Written.sent {e : Case V} {v : V} (h : Written s (s.waiter f k e) e.dir)
    (hdir : e.dir = .send v) (he : (s.fibers f).op.cases[k]? = some e) :
    Completed s f (s.fibers f).call (s.fibers f).op
      (if (s.records (s.waiter f k e)).sendResult = 0 then .sent k else .sendClosed k) := by
  have he : (s.fibers f).op.cases[k]? = some ⟨e.ch, .send v⟩ := by rw [he, ← hdir]
  have hside : e.dir.side = .tx := by rw [hdir]; rfl
  rw [hdir] at h
  rcases h with ⟨hr, hev⟩ | ⟨hr, hclosed, hev⟩
  · rw [if_pos hr]
    refine ⟨e.ch, v, he, hev.trans ?_⟩
    rw [Waiter.event, State.waiter, hside]
    rfl
  · rw [if_neg (by rw [hr]; decide)]
    exact ⟨e.ch, v, he, hclosed, hev⟩

theorem Written.received {e : Case V} {v : V} (h : Written s (s.waiter f k e) e.dir)
    (hdir : e.dir = .recv) (he : (s.fibers f).op.cases[k]? = some e)
    (hv : (s.records (s.waiter f k e)).value = some v) :
    (s.records (s.waiter f k e)).ok = 1 ∧
      Completed s f (s.fibers f).call (s.fibers f).op (.received k (some v)) := by
  have he : (s.fibers f).op.cases[k]? = some ⟨e.ch, .recv⟩ := by rw [he, ← hdir]
  have hside : e.dir.side = .rx := by rw [hdir]; rfl
  rw [hdir] at h
  rcases h with ⟨v', hr, hok, hev⟩ | ⟨hr, -⟩
  · rw [hv] at hr
    cases hr
    refine ⟨hok, e.ch, v, he, rfl, hev.trans ?_⟩
    rw [Waiter.event, State.waiter, hside]
    rfl
  · rw [hv] at hr
    cases hr

/-- A receive that was woken by a close has received nothing. -/
theorem Written.closed {e : Case V} (h : Written s (s.waiter f k e) e.dir)
    (hdir : e.dir = .recv) (hv : (s.records (s.waiter f k e)).value = none) :
    (s.records (s.waiter f k e)).ok = 0 ∧ (s.chans e.ch).closed = true ∧
      s.events f (s.fibers f).call = [] := by
  rw [hdir] at h
  rcases h with ⟨v', hr, -⟩ | ⟨-, hok, hclosed, hev⟩
  · rw [hv] at hr
    cases hr
  · exact ⟨hok, hclosed, hev⟩

theorem Attended.unclaimed (h : Attended s) (hpc : ∀ w, ¬ (s.fibers f).pc.awaits w) (k : ℕ)
    (e : Case V) : ¬ Claimed s (s.waiter f k e) := by
  rintro ⟨i, sec, hsec, hst⟩
  exact h.none_of_pc hpc i sec _ ⟨hsec, by rw [hst]; rfl⟩ rfl

/-- The end of a select finds the record of the fired case written. -/
theorem Account.fired_written {e : Case V} (h : Account s f) (ha : Attended s)
    (hk : Locks s) (hpc : (s.fibers f).pc = .finish k)
    (he : (s.fibers f).op.cases[k]? = some e) : Written s (s.waiter f k e) e.dir := by
  have hfired := h.final k (by rw [hpc]; rfl)
  obtain ⟨e', he', hw⟩ := h.due (hk.selecting f (by rw [hpc]; rfl)) (by simp [hpc]) k hfired
  rw [he] at he'
  cases he'
  exact h.written k e he (hw.resolve_right (ha.unclaimed (by simp [hpc, Pc.awaits]) k e))

/-- A plain call that finds itself popped finds its record written. -/
theorem Account.popped_written {e : Case V} {b : Bool} (h : Account s f) (hh : Held s)
    (hop : (s.fibers f).op = .plain e b) (hlock : (s.chans e.ch).lock = none)
    (hout : s.waiter f 0 e ∉ (s.chans e.ch).queue e.dir.side) :
    Written s (s.waiter f 0 e) e.dir := by
  have he : (s.fibers f).op.cases[0]? = some e := by rw [hop]; rfl
  have hsel : (s.fibers f).op.isSelect = false := by rw [hop]; rfl
  refine h.written 0 e he (((h.plain hsel e he).resolve_left hout).resolve_right ?_)
  rintro ⟨i, sec, hsec, hst⟩
  exact hh.none_of_parked hop hlock ⟨i, sec, s.waiter f 0 e, ⟨hsec, by rw [hst]; rfl⟩, hsel, rfl⟩

/-! ## Every move -/

/-- The fiber goes on outside every section and park. -/
theorem ledger_free (h : ∀ g, Ledger s g)
    (hfib : t.fibers = fun j => if j = f then x else s.fibers j)
    (hcall : x.call = (s.fibers f).call) (hhist : t.hist = s.hist) (hres : t.results = s.results)
    (hrec : t.records = s.records) (hfired : t.fired = s.fired)
    (hchan : ∀ i, (s.chans i).Keeps f (t.chans i))
    (hpc : x.pc = .start ∨ x.pc = .scan ∨ ∃ stride k i, x.pc = .tryCase stride k i)
    (hev : s.events f (s.fibers f).call = []) : ∀ g, Ledger t g := by
  have hlog : t.hist = s.hist ++ [] := by rw [hhist, List.append_nil]
  refine ledger_go h hfib hcall hlog (by rintro _ ⟨⟩) hres (fun _ _ => by rw [hrec])
    (fun _ _ => by rw [hfired]) hchan ?_
  unfold Standing
  rw [upd_self hfib]
  have hev : t.events f x.call = [] := by
    rw [State.events, hhist, hcall]
    exact hev
  rcases hpc with hpc | hpc | ⟨stride, k, i, hpc⟩ <;> rw [hpc] <;> exact hev

/-- A call that has done nothing scans again, or gives up. -/
theorem ledger_retry (h : ∀ g, Ledger s g) (hev : s.events f (s.fibers f).call = []) :
    ∀ g, Ledger (s.retry f) g := by
  obtain hr | hr := retry_cases s f <;> rw [hr]
  · exact ledger_ret h rfl rfl (List.append_nil _).symm (by rintro _ ⟨⟩) rfl rfl (fun _ => .refl f _) hev
  · exact ledger_free h rfl rfl rfl rfl rfl rfl (fun _ => .refl f _) (.inr (.inl rfl)) hev

/-- The fiber takes the lock of `ch`. -/
theorem ledger_enter {es : List (Event V)} (h : ∀ g, Ledger s g)
    (hfib : t.fibers = fun j => if j = f then { s.fibers f with pc := .locked ch } else s.fibers j)
    (hhist : t.hist = s.hist ++ es)
    (hes : ∀ e ∈ es, e.fiber = f ∧ e.call = (s.fibers f).call)
    (hres : t.results = s.results) (hrec : t.records = s.records) (hfired : t.fired = s.fired)
    (hchan : t.chans = fun i => if i = ch then c else s.chans i)
    (hfree : (s.chans ch).lock = none) (hlock : c.lock = some e) (hf : e.fiber = f)
    (hst : e.stage = .popping) (hclosed : (s.chans ch).closed = true → c.closed = true)
    (hq : ∀ d, c.queue d = (s.chans ch).queue d)
    (hev : s.events f (s.fibers f).call = []) (hgiven : es = e.given ch (s.fibers f).call)
    (hval : ∀ p, e.job = .got p → p.isSome) (hcl : e.closing = true → c.closed = true) :
    ∀ g, Ledger t g := by
  refine ledger_go h hfib rfl hhist hes hres (fun _ _ => by rw [hrec]) (fun _ _ => by rw [hfired])
    (keeps_upd hchan (.enter hfree hlock hst hclosed hq)) ?_
  rw [← hf]
  refine Sect.Paid.standing ⟨?_, hval, fun hc => ?_⟩ (by rw [upd_self hchan, hlock])
    (by rw [hf, upd_self hfib])
  · rw [hf, upd_self hfib]
    rw [events_own hhist hes, hev, List.nil_append, hgiven]
  · rw [upd_self hchan]
    exact hcl hc

/-- The fiber stays in its section, with nothing claimed or written. -/
theorem ledger_stay (h : ∀ g, Ledger s g) (hi : Inv s)
    (hsec : (s.chans ch).lock = some sec) (hfib : t.fibers = s.fibers) (hhist : t.hist = s.hist)
    (hres : t.results = s.results) (hrec : t.records = s.records) (hfired : t.fired = s.fired)
    (hchan : t.chans = fun i => if i = ch then c else s.chans i) (hlock : c.lock = some e)
    (hf : e.fiber = sec.fiber) (hkeep : (s.chans ch).Keeps sec.fiber c)
    (hgiven : ∀ n, e.given ch n = sec.given ch n)
    (hval : ∀ p, e.job = .got p → sec.job = .got p) (hcl : e.closing = sec.closing) :
    ∀ g, Ledger t g := by
  have hlog : t.hist = s.hist ++ [] := by rw [hhist, List.append_nil]
  have hkeeps := keeps_upd hchan hkeep
  obtain ⟨hev, hval', hcl'⟩ := (h sec.fiber).paid hi.locks hsec
  refine ledger_touch (N := (· = sec.fiber)) h (fun g => by rw [hfib]) hlog (by rintro _ ⟨⟩) hres
    (fun i => (hkeeps i).closed) (fun g hg => ⟨by rw [hfib], fun w _ => by rw [hrec],
      fun p _ => by rw [hfired], fun i => (hkeeps i).sees hg⟩) fun g hg => ?_
  rw [hg, ← hf]
  refine Sect.Paid.standing ⟨?_, fun p hp => hval' p (hval p hp), fun hc => ?_⟩
    (by rw [upd_self hchan, hlock]) (by rw [hfib, hf]; exact hi.locks.holder ch sec hsec)
  · rw [hf, hfib, hgiven, State.events, hhist]
    exact hev
  · rw [hcl] at hc
    exact (hkeeps ch).closed (hcl' hc)

/-- A plain call joins the queue and parks. -/
theorem ledger_park {e : Case V} {b : Bool} (h : ∀ g, Ledger s g)
    (hop : (s.fibers f).op = .plain e b) (hev : s.events f (s.fibers f).call = [])
    (hfib : t.fibers = fun j => if j = f then { s.fibers f with pc := .parked } else s.fibers j)
    (hhist : t.hist = s.hist) (hres : t.results = s.results) (hfired : t.fired = s.fired)
    (hrec : t.records = fun v => if v = s.waiter f 0 e then e.dir.record else s.records v)
    (hchan : t.chans = fun i => if i = e.ch then c else s.chans i)
    (hun : (s.chans e.ch).Unclaimed) (hown : ∀ e', (s.chans e.ch).lock = some e' → e'.fiber = f)
    (hlock : c.lock = none)
    (hclosed : c.closed = (s.chans e.ch).closed)
    (hq : ∀ d, c.queue d = ((s.chans e.ch).setQueue
      ((s.chans e.ch).queue e.dir.side ++ [s.waiter f 0 e]) e.dir.side).queue d) :
    ∀ g, Ledger t g := by
  have hlog : t.hist = s.hist ++ [] := by rw [hhist, List.append_nil]
  have hwait := congrFun (waiter_goto hfib f 0) e
  refine ledger_go h hfib rfl hlog (by rintro _ ⟨⟩) hres (fun w hw => ?_) (fun _ _ => by rw [hfired])
    (keeps_upd hchan (.push hun rfl hown hlock hclosed hq)) ?_
  · rw [hrec]
    refine if_neg ?_
    rintro rfl
    exact hw rfl
  · refine Account.standing (.parked (e := e) (b := b) ?_ ?_ ?_ ?_ ?_) ?_
    · rw [upd_self hfib]
      exact hop
    · rw [upd_self hfib]
    · rw [hwait, hrec]
      exact if_pos rfl
    · rw [hwait]
      exact queued_of_push hchan hq rfl rfl
    · rw [upd_self hfib, State.events, hhist]
      exact hev
    · rw [upd_self hfib]
      rfl

/-- A select moves on within its park. -/
theorem ledger_advance {pc : Pc} (h : ∀ g, Ledger s g) (hi : Inv s)
    (hin : (s.fibers f).pc.inPark = true) (hin' : pc.inPark = true)
    (hsel : (s.fibers f).pc.selecting = true)
    (hfib : t.fibers = fun j => if j = f then { s.fibers f with pc := pc } else s.fibers j)
    (hhist : t.hist = s.hist) (hres : t.results = s.results) (hrec : t.records = s.records)
    (hfired : t.fired = s.fired) (hchan : ∀ i, (s.chans i).Keeps f (t.chans i))
    (hq : ∀ k c, (s.fibers f).op.cases[k]? = some c → Queued t (s.waiter f k c) →
      Queued s (s.waiter f k c) ∨ (s.records (s.waiter f k c)).filled = false)
    (habort : (∃ j, pc = .evict .abort j) ↔ ∃ j, (s.fibers f).pc = .evict .abort j)
    (hfinal : ∀ k, pc.firing = some k → s.fired (s.park f) = some k) : ∀ g, Ledger t g := by
  have hlog : t.hist = s.hist ++ [] := by rw [hhist, List.append_nil]
  refine ledger_go h hfib rfl hlog (by rintro _ ⟨⟩) hres (fun _ _ => by rw [hrec])
    (fun _ _ => by rw [hfired]) hchan ?_
  refine Account.standing ?_ (by rw [upd_self hfib]; exact hin')
  exact ((h f).standing.account hin).advance hfib hhist hrec hfired hchan hq
    (hi.locks.selecting f hsel) habort hfinal

theorem AtCase.events_nil {caller : Caller} {c : Case V} (h : AtCase s f caller c)
    (hl : Ledger s f) : s.events f (s.fibers f).call = [] := by
  have hst := hl.standing
  unfold Standing at hst
  cases h with
  | plain hpc _ =>
    rw [hpc] at hst
    exact hst
  | scan hpc _ _ =>
    rw [hpc] at hst
    exact hst

theorem ledger_step (h : ∀ g, Ledger s g) (hi : Inv s) (ha : Attended s) (hm : Move s f t) :
    ∀ g, Ledger t g := by
  have hown := (h f).standing
  unfold Standing at hown
  have hkeep : ∀ i, (s.chans i).Keeps f (s.chans i) := fun i => .refl f _
  have hnil := (List.append_nil s.hist).symm
  cases hm with
  | call hpc | toScan hpc | draw hpc =>
    rw [hpc] at hown
    exact ledger_free h rfl rfl rfl rfl rfl rfl hkeep (by simp) hown
  | @sendClosed caller e v hat hdir hclosed =>
    refine ledger_ret h rfl rfl hnil (by rintro _ ⟨⟩) rfl rfl hkeep ?_
    exact ⟨e.ch, v, by rw [hat.cases, ← hdir], hclosed, hat.events_nil (h f)⟩
  | enterHand hat hlock hdir hopen | enterTake hat hlock hdir hlen =>
    exact ledger_enter h rfl hnil (by rintro _ ⟨⟩) rfl rfl rfl rfl hlock rfl rfl rfl id (fun _ => rfl)
      (hat.events_nil (h f)) rfl (by rintro _ ⟨⟩) (by rintro ⟨⟩)
  | @enterGot caller e hat hlock hdir hlen =>
    refine ledger_enter h rfl rfl (by simp [State.event]) rfl rfl rfl rfl hlock rfl rfl rfl id
      (fun _ => rfl) (hat.events_nil (h f)) rfl (fun p hp => ?_) (by rintro ⟨⟩)
    cases hp
    exact (hi.settled e.ch).ring.pop_isSome hlen
  | retStart hpc hout =>
    rw [hpc] at hown
    refine ledger_ret h rfl rfl hnil (by rintro _ ⟨⟩) rfl rfl hkeep ?_
    rcases hout with rfl | rfl <;> exact hown
  | enterClose hpc hop hlock =>
    rw [hpc] at hown
    exact ledger_enter h rfl hnil (by rintro _ ⟨⟩) rfl rfl rfl rfl hlock rfl rfl rfl (fun _ => rfl)
      (fun _ => rfl) hown rfl (by rintro _ ⟨⟩) fun _ => rfl
  | retScan hpc hout =>
    rw [hpc] at hown
    refine ledger_ret h rfl rfl hnil (by rintro _ ⟨⟩) rfl rfl hkeep ?_
    rcases hout with rfl | rfl <;> exact hown
  | @newPark stride k i cs d hpc hop =>
    rw [hpc] at hown
    have hne : ∀ p : Park, p.fiber ≠ f → p ≠ s.park f := fun p hp he => hp (congrArg Park.fiber he)
    refine ledger_go h rfl rfl hnil (by rintro _ ⟨⟩) rfl (fun w hw => ?_) (fun p hp => if_neg (hne p hp))
      hkeep ?_
    · simp only [State.newPark, State.goto, State.setFiber, hne _ hw, if_false]
      split <;> rfl
    · have hfib := upd_self (i := f)
        (show ((s.newPark f cs).goto f (.install 0)).fibers = fun j => if j = f then
          { s.fibers f with pc := .install 0 } else s.fibers j from rfl)
      refine Account.standing (.fresh ?_ ?_ ?_ ?_ ?_ ?_) (by rw [hfib]; rfl)
      · intro k c hc
        rw [hfib, show { s.fibers f with pc := Pc.install 0 : Fiber V }.op = _ from hop] at hc
        rw [waiter_goto (s := s) rfl]
        exact newPark_records hc
      · rw [hfib]
        exact hown
      · simp [hfib]
      · simp [hfib]
      · intro _
        rw [State.park, hfib]
        exact if_pos rfl
      · intro hs
        rw [hfib, show { s.fibers f with pc := Pc.install 0 : Fiber V }.op = _ from hop] at hs
        cases hs
  | tombstone hsec hf hst hq hsel hfired =>
    refine ledger_stay h hi hsec rfl rfl rfl rfl rfl rfl rfl rfl ?_ (fun _ => rfl) (fun _ => id) rfl
    refine .stay hsec (by simp [hst]) rfl (by simp [hst]) rfl rfl (fun d w _ hw => ?_)
      fun d w _ hs hw => mem_setQueue_of (fun hw => ?_) hw
    · exact (setQueue_sublist (by rw [hq]; exact List.sublist_cons_self _ _) d).subset hw
    · rw [hq] at hw
      refine (List.mem_cons.mp hw).resolve_left ?_
      rintro rfl
      rw [hsel] at hs
      cases hs
  | claimPlain hsec hf hst hq hsel =>
    exact ledger_claim h hi hsec hst hq rfl rfl rfl rfl rfl (.inr ⟨hsel, rfl⟩)
  | claimSelect hsec hf hst hq hsel hfired =>
    exact ledger_claim h hi hsec hst hq rfl rfl rfl rfl rfl (.inl ⟨hsel, hfired, rfl⟩)
  | @bufferSend ch sec v hsec hf hst hjob hq hroom =>
    subst hf
    obtain ⟨hev, -, -⟩ := (h sec.fiber).paid hi.locks hsec
    have hes : ∀ e ∈ [s.event sec.fiber sec.caller.index ch .tx (some v)],
        e.fiber = sec.fiber ∧ e.call = (s.fibers sec.fiber).call := by simp [State.event]
    refine ledger_ret h rfl rfl rfl hes rfl rfl
      (keeps_upd rfl (.leave hsec rfl (by simp [hst]) rfl rfl fun _ => rfl)) ?_
    refine ⟨ch, v, hi.locks.atCase ch sec _ hsec (by rw [hjob]; rfl), ?_⟩
    rw [events_own rfl hes, hev, Sect.given, hjob, hst]
    rfl
  | @recvClosed ch sec hsec hf hst hjob hq hclosed =>
    subst hf
    obtain ⟨hev, -, -⟩ := (h sec.fiber).paid hi.locks hsec
    rw [Sect.given, hjob, hst] at hev
    refine ledger_ret h rfl rfl hnil (by rintro _ ⟨⟩) rfl rfl
      (keeps_upd rfl (.leave hsec rfl (by simp [hst]) rfl rfl fun _ => rfl)) ?_
    refine ⟨ch, hi.locks.atCase ch sec _ hsec (by rw [hjob]; rfl), ?_, hev⟩
    simp [State.unlock, State.setChan, State.ret, State.setFiber, hclosed]
  | @gotDone ch sec p hsec hf hst hjob hq =>
    subst hf
    obtain ⟨hev, hval, -⟩ := (h sec.fiber).paid hi.locks hsec
    rw [Sect.given, hjob, hst] at hev
    obtain ⟨v, rfl⟩ := Option.isSome_iff_exists.mp (hval p hjob)
    refine ledger_ret h rfl rfl hnil (by rintro _ ⟨⟩) rfl rfl
      (keeps_upd rfl (.leave hsec rfl (by simp [hst]) rfl rfl fun _ => rfl)) ?_
    exact ⟨ch, v, hi.locks.atCase ch sec _ hsec (by rw [hjob]; rfl), rfl, hev⟩
  | closeNext hsec hf hst hjob hq =>
    refine ledger_stay h hi hsec rfl rfl rfl rfl rfl rfl rfl rfl ?_ (fun n => ?_) (by rintro _ ⟨⟩) ?_
    · exact .stay hsec (by simp [hst]) rfl (by simp [hst]) rfl rfl (fun _ _ _ => id)
        fun _ _ _ _ => id
    · simp [Sect.given, hjob]
    · simp [Sect.closing, hjob]
  | closeDone hsec hf hst hjob hq =>
    subst hf
    obtain ⟨hev, -, -⟩ := (h _).paid hi.locks hsec
    rw [Sect.given, hjob, hst] at hev
    exact ledger_ret h rfl rfl hnil (by rintro _ ⟨⟩) rfl rfl
      (keeps_upd rfl (.leave hsec rfl (by simp [hst]) rfl rfl fun _ => rfl)) hev
  | refuse hsec hf hst hjob hout =>
    subst hf
    obtain ⟨hev, -, -⟩ := (h _).paid hi.locks hsec
    refine ledger_ret h rfl rfl hnil (by rintro _ ⟨⟩) rfl rfl
      (keeps_upd rfl (.leave hsec rfl (by simp [hst]) rfl rfl fun _ => rfl)) ?_
    have hev := hev.trans (Sect.given_nil hst hjob)
    rcases hout with rfl | rfl <;> exact hev
  | @parkPlain ch sec e b hsec hf hst hop hcaller hjob =>
    obtain ⟨rfl, -⟩ := hi.locks.parkPlain_case hsec hf hop hcaller hjob
    subst hf
    obtain ⟨hev, -, -⟩ := (h _).paid hi.locks hsec
    have hjob' : sec.job = .take ∨ ∃ v, sec.job = .hand v := by
      rcases hjob with ⟨v, hj, -⟩ | ⟨hj, -⟩
      · exact .inr ⟨v, hj⟩
      · exact .inl hj
    refine ledger_park h hop (hev.trans (Sect.given_nil hst hjob')) rfl rfl rfl rfl rfl rfl
      (.of_stage hsec (by simp [hst])) (fun e' he' => ?_) rfl rfl fun _ => rfl
    rw [hsec] at he'
    cases he'
    rfl
  | nextCase hsec hf hst hcaller hjob =>
    subst hf
    obtain ⟨hev, -, -⟩ := (h _).paid hi.locks hsec
    exact ledger_free h rfl rfl rfl rfl rfl rfl
      (keeps_upd rfl (.leave hsec rfl (by simp [hst]) rfl rfl fun _ => rfl))
      (.inr (.inr ⟨_, _, _, rfl⟩)) (hev.trans (Sect.given_nil hst hjob))
  | @fillHand ch sec w v hsec hf hst hjob =>
    obtain ⟨hne, hch, hpaid, hcall, hev, -⟩ := fill_facts h hi ha hsec hst
    subst hf
    have hown := hpaid.events
    rw [Sect.given, hjob, hst] at hown
    refine ledger_fill h hi ha hsec hst rfl rfl rfl rfl rfl rfl (fun _ => rfl) rfl rfl rfl rfl rfl
      (by simp [State.event, Waiter.event]) ⟨?_, by simp [hjob], by simp [Sect.closing, hjob]⟩
      fun c hc _ hside => ?_
    · rw [events_log (s := s) rfl]
      simp only [Sect.given, hjob, State.stay, State.setChan, State.setRecord, State.log, hown]
      simp [State.event, Waiter.event, hne]
    · rw [hjob] at hside
      cases hdir : c.dir with
      | send v => rw [hdir] at hside; cases hside
      | recv =>
        refine .inl ⟨v, ?_, ?_, ?_⟩
        · simp [State.setRecord, State.stay, State.setChan]
        · simp [State.setRecord, State.stay, State.setChan]
        · rw [events_log (s := s) rfl, hev]
          simp [State.event, Waiter.event, Ne.symm hne]
  | @fillTake ch sec w hsec hf hst hjob =>
    obtain ⟨hne, hch, hpaid, hcall, hev, k, hk, hwk, hshape, hside⟩ := fill_facts h hi ha hsec hst
    subst hf
    have hown := hpaid.events
    rw [Sect.given, hjob, hst] at hown
    refine ledger_fill h hi ha hsec hst rfl rfl rfl rfl rfl rfl (fun _ => rfl) rfl rfl rfl rfl rfl
      (by simp [State.event, Waiter.event]) ⟨?_, fun p hp => ?_, by rintro ⟨⟩⟩ fun c hc hrec hside => ?_
    · rw [events_log (s := s) rfl]
      simp only [Sect.given, State.stay, State.setChan, State.setRecord, State.log, hown]
      simp [State.event, Waiter.event, hne]
    · cases hp
      rw [hjob] at hside
      rw [hshape]
      exact Dir.record_value hside
    · rw [hjob] at hside
      cases hdir : c.dir with
      | recv => rw [hdir] at hside; cases hside
      | send v =>
        have hval : (s.records w).value = some v := by rw [hrec, hdir]; rfl
        refine .inl ⟨?_, ?_⟩
        · simp [State.setRecord, State.stay, State.setChan]
        · rw [events_log (s := s) rfl, hev]
          simp [State.event, Waiter.event, Ne.symm hne, hval]
  | @fillGot ch sec w p hsec hf hst hjob =>
    obtain ⟨hne, hch, hpaid, hcall, hev, -⟩ := fill_facts h hi ha hsec hst
    subst hf
    have hown := hpaid.events
    rw [Sect.given, hjob, hst] at hown
    refine ledger_fill h hi ha hsec hst rfl rfl rfl rfl rfl rfl (fun _ => rfl) rfl rfl rfl rfl rfl
      (by simp [Waiter.event]) ⟨?_, hpaid.value, by simp [Sect.closing, hjob]⟩
      fun c hc hrec hside => ?_
    · rw [events_log (s := s) rfl]
      simp only [Sect.given, hjob, State.stay, State.setChan, State.setRecord, State.log, hown]
      simp [Waiter.event, hne]
    · rw [hjob] at hside
      cases hdir : c.dir with
      | recv => rw [hdir] at hside; cases hside
      | send v =>
        have hval : (s.records w).value = some v := by rw [hrec, hdir]; rfl
        refine .inl ⟨?_, ?_⟩
        · simp [State.setRecord, State.stay, State.setChan]
        · rw [events_log (s := s) rfl, hev]
          simp [Waiter.event, hval]
  | @fillCloseTx ch sec w hsec hf hst hjob =>
    obtain ⟨hne, hch, hpaid, hcall, hev, -⟩ := fill_facts h hi ha hsec hst
    subst hf
    have hown := hpaid.events
    rw [Sect.given, hjob, hst] at hown
    have hclosed := hpaid.closed (by simp [Sect.closing, hjob])
    refine ledger_fill h hi ha hsec hst rfl rfl rfl rfl rfl rfl (fun _ => rfl) rfl rfl rfl rfl hnil
      (by rintro _ ⟨⟩) ⟨?_, by simp [hjob], fun _ => ?_⟩ fun c hc hrec hside => ?_
    · rw [Sect.given, hjob]
      exact hown
    · simp [State.setRecord, State.stay, State.setChan, hclosed]
    · rw [hjob] at hside
      cases hdir : c.dir with
      | recv => rw [hdir] at hside; cases hside
      | send v =>
        refine .inr ⟨?_, ?_, hev⟩
        · simp [State.setRecord, State.stay, State.setChan]
        · simp [State.setRecord, State.stay, State.setChan, hclosed, hch]
  | @fillCloseRx ch sec w hsec hf hst hjob =>
    obtain ⟨hne, hch, hpaid, hcall, hev, -⟩ := fill_facts h hi ha hsec hst
    subst hf
    have hown := hpaid.events
    rw [Sect.given, hjob, hst] at hown
    have hclosed := hpaid.closed (by simp [Sect.closing, hjob])
    refine ledger_fill h hi ha hsec hst rfl rfl rfl rfl rfl rfl (fun _ => rfl) rfl rfl rfl rfl hnil
      (by rintro _ ⟨⟩) ⟨?_, by simp [hjob], fun _ => ?_⟩ fun c hc hrec hside => ?_
    · rw [Sect.given, hjob]
      exact hown
    · simp [State.setRecord, State.stay, State.setChan, hclosed]
    · rw [hjob] at hside
      cases hdir : c.dir with
      | send v => rw [hdir] at hside; cases hside
      | recv =>
        refine .inr ⟨?_, ?_, ?_, hev⟩
        · simp [State.setRecord, State.stay, State.setChan]
        · simp [State.setRecord, State.stay, State.setChan]
        · simp [State.setRecord, State.stay, State.setChan, hclosed, hch]
  | @wakeHand ch sec w v hsec hf hst hjob =>
    subst hf
    obtain ⟨hev, -, -⟩ := (h sec.fiber).paid hi.locks hsec
    rw [Sect.given, hjob, hst] at hev
    refine ledger_ret h rfl rfl hnil (by rintro _ ⟨⟩) rfl rfl
      (keeps_upd rfl (.leave hsec rfl (by simp [hst]) rfl rfl fun _ => rfl)) ?_
    exact ⟨ch, v, hi.locks.atCase ch sec _ hsec (by rw [hjob]; rfl), hev⟩
  | @wakeGot ch sec w p hsec hf hst hjob =>
    subst hf
    obtain ⟨hev, hval, -⟩ := (h sec.fiber).paid hi.locks hsec
    rw [Sect.given, hjob, hst] at hev
    obtain ⟨v, rfl⟩ := Option.isSome_iff_exists.mp (hval p hjob)
    refine ledger_ret h rfl rfl hnil (by rintro _ ⟨⟩) rfl rfl
      (keeps_upd rfl (.leave hsec rfl (by simp [hst]) rfl rfl fun _ => rfl)) ?_
    exact ⟨ch, v, hi.locks.atCase ch sec _ hsec (by rw [hjob]; rfl), rfl, hev⟩
  | wakeClose hsec hf hst hjob =>
    refine ledger_stay h hi hsec rfl rfl rfl rfl rfl rfl rfl rfl ?_ (fun n => ?_) (fun _ => id) rfl
    · exact .stay hsec (by simp [hst]) rfl (by rintro _ ⟨⟩) rfl rfl (fun _ _ _ => id) fun _ _ _ _ => id
    · rcases hjob with hjob | hjob <;> simp [Sect.given, hjob]
  | @resumeSend e b v hpc hop hdir hlock hout =>
    rw [hpc] at hown
    have hw := hown.popped_written hi.held hop hlock hout
    exact ledger_ret h rfl rfl hnil (by rintro _ ⟨⟩) rfl rfl hkeep
      ((hw.sent hdir (by rw [hop]; rfl)).mono rfl fun _ => id)
  | @resumeRecv e b hpc hop hdir hlock hout =>
    rw [hpc] at hown
    have hw := hown.popped_written hi.held hop hlock hout
    have he : (s.fibers f).op.cases[0]? = some e := by rw [hop]; rfl
    refine ledger_ret h rfl rfl hnil (by rintro _ ⟨⟩) rfl rfl hkeep (Completed.mono ?_ rfl fun _ => id)
    cases hval : (s.records (s.waiter f 0 e)).value with
    | some v =>
      obtain ⟨hok, hc⟩ := hw.received hdir he hval
      rw [if_pos hok]
      exact hc
    | none =>
      obtain ⟨hok, hclosed, hev⟩ := hw.closed hdir hval
      rw [if_neg (by rw [hok]; decide)]
      exact ⟨e.ch, by rw [he, ← hdir], hclosed, hev⟩
  | installDone hpc hcase | installReady hpc | abortLost hpc hfired | loadNone hpc hfired =>
    exact ledger_advance h hi (by rw [hpc]; rfl) rfl (by rw [hpc]; rfl) rfl rfl rfl rfl rfl hkeep
      (fun _ _ _ => .inl) (by simp [hpc]) (by rintro _ ⟨⟩)
  | @installPush i e hpc hcase hlock hready =>
    have hsel := hi.locks.selecting f (by rw [hpc]; rfl)
    refine ledger_advance h hi (by rw [hpc]; rfl) rfl (by rw [hpc]; rfl) rfl rfl rfl rfl rfl
      (keeps_upd rfl (.push (v := s.waiter f i e) (d := e.dir.side) (.of_free hlock) rfl
        (by simp [hlock]) hlock rfl fun _ => rfl)) (fun k d hd hq => ?_) (by simp [hpc]) (by rintro _ ⟨⟩)
    rcases queued_push rfl (fun _ => rfl) hq with hq | hq
    · exact .inl hq
    · rw [hq, hi.linked.fresh f i i e hpc (Nat.le_refl i) hcase]
      exact .inr (by cases e.dir <;> rfl)
  | abortWin hpc hfired =>
    rw [hpc] at hown
    have hsel := hi.locks.selecting f (by rw [hpc]; rfl)
    refine ledger_go h rfl rfl hnil (by rintro _ ⟨⟩) rfl (fun _ _ => rfl)
      (fun p hp => if_neg fun he => hp (congrArg Park.fiber he)) hkeep ?_
    exact Account.standing (hown.abort rfl rfl rfl hsel hfired) (by rw [goto_pc]; rfl)
  | loadFired hpc hfired =>
    refine ledger_advance h hi (by rw [hpc]; rfl) rfl (by rw [hpc]; rfl) rfl rfl rfl rfl rfl hkeep
      (fun _ _ _ => .inl) (by simp [hpc]) fun k hk => ?_
    cases hk
    exact hfired
  | evictSkip hpc | evictDone hpc =>
    rw [hpc] at hown
    refine ledger_advance h hi (by rw [hpc]; rfl) rfl (by rw [hpc]; rfl) rfl rfl rfl rfl rfl hkeep
      (fun _ _ _ => .inl) (by simp [hpc]) fun k hk => ?_
    cases hk
    exact hown.final _ (by rw [hpc]; rfl)
  | @evictErase why j e hpc hcase hwhy hlock =>
    rw [hpc] at hown
    refine ledger_advance h hi (by rw [hpc]; rfl) rfl (by rw [hpc]; rfl) rfl rfl rfl rfl rfl
      (keeps_upd rfl (.erase hlock rfl)) (fun k d hd hq => .inl ?_) (by simp [hpc]) fun k hk => ?_
    · exact (queue_stay rfl (setQueue_sublist List.erase_sublist) _ _).subset hq
    · refine hown.final k ?_
      rw [hpc]
      cases why <;> exact hk
  | @evictRetry why j hpc hcase hwhy =>
    rw [hpc] at hown
    refine ledger_retry h (hown.unpaid ?_)
    rcases hwhy with rfl | ⟨rfl, hfired⟩
    · exact hown.aborted j hpc
    · exact hown.unfilled (hi.locks.selecting f (by rw [hpc]; rfl)) hfired
  | evictFired hpc hcase hfired =>
    refine ledger_advance h hi (by rw [hpc]; rfl) rfl (by rw [hpc]; rfl) rfl rfl rfl rfl rfl hkeep
      (fun _ _ _ => .inl) (by simp [hpc]) fun k hk => ?_
    cases hk
    exact hfired
  | finishSend hpc hcase hdir =>
    rw [hpc] at hown
    have hw := hown.fired_written ha hi.locks hpc hcase
    exact ledger_ret h rfl rfl hnil (by rintro _ ⟨⟩) rfl rfl hkeep ((hw.sent hdir hcase).mono rfl fun _ => id)
  | finishRecv hpc hcase hdir hvalue =>
    rw [hpc] at hown
    have hw := hown.fired_written ha hi.locks hpc hcase
    exact ledger_ret h rfl rfl hnil (by rintro _ ⟨⟩) rfl rfl hkeep
      ((hw.received hdir hcase hvalue).2.mono rfl fun _ => id)
  | finishRetry hpc hcase hdir hvalue =>
    rw [hpc] at hown
    exact ledger_retry h ((hown.fired_written ha hi.locks hpc hcase).closed hdir hvalue).2.2

/-! ## Every run -/

/-- What the case of an event returns. -/
def Event.outcome (e : Event V) : Outcome V :=
  match e.side with
  | .tx => .sent e.case
  | .rx => .received e.case e.value

/-- Inside a section or a park. -/
def Pc.busy : Pc → Bool
  | .locked _ => true
  | pc => pc.inPark

/-- Every returned call completed the one case it reports; every value that
moved is what its call returns, or its call is still under way; nothing is lost
or doubled on a channel; and no queue and no section has a record of a park
that is over. -/
structure Exactly (s : State V) : Prop where
  returned : ∀ f n op out, s.results f n = some (op, out) → Completed s f n op out
  kept : ∀ e ∈ s.hist, s.events e.fiber e.call = [e] ∧
    ((∃ op, s.results e.fiber e.call = some (op, e.outcome)) ∨
      (e.call = (s.fibers e.fiber).call ∧ (s.fibers e.fiber).pc.busy = true))
  conserved : Conserved s
  live : ∀ ch w, (∃ d, w ∈ (s.chans ch).queue d) ∨ (∃ e, Holds s ch e w) →
    w.park = s.park w.park.fiber ∧ (s.fibers w.park.fiber).pc.inPark = true

theorem Completed.outcome {n : ℕ} {op : Op V} {out : Outcome V} {e : Event V}
    (h : Completed s f n op out) (he : e ∈ s.events f n) :
    s.events f n = [e] ∧ out = e.outcome := by
  cases out with
  | sent i =>
    obtain ⟨ch, v, -, hev⟩ := h
    rw [hev] at he ⊢
    rw [List.mem_singleton.mp he]
    exact ⟨rfl, rfl⟩
  | received i p =>
    obtain ⟨ch, v, -, rfl, hev⟩ := h
    rw [hev] at he ⊢
    rw [List.mem_singleton.mp he]
    exact ⟨rfl, rfl⟩
  | sendClosed i =>
    obtain ⟨ch, v, -, -, hev⟩ := h
    rw [hev] at he
    cases he
  | recvClosed i =>
    obtain ⟨ch, -, -, hev⟩ := h
    rw [hev] at he
    cases he
  | _ =>
    rw [show s.events f n = [] from h] at he
    cases he

theorem Account.events_eq {e : Event V} (h : Account s f)
    (he : e ∈ s.events f (s.fibers f).call) : s.events f (s.fibers f).call = [e] := by
  by_cases hall : ∀ k c, (s.fibers f).op.cases[k]? = some c →
      (s.records (s.waiter f k c)).filled = false
  · rw [h.unpaid hall] at he
    cases he
  · push Not at hall
    obtain ⟨k, c, hc, hf⟩ := hall
    have hw := h.written k c hc (by simpa using hf)
    have hone : ∀ {x}, s.events f (s.fibers f).call = [x] →
        s.events f (s.fibers f).call = [e] := by
      intro x hx
      rw [hx] at he ⊢
      rw [List.mem_singleton.mp he]
    have hzero : s.events f (s.fibers f).call = [] → s.events f (s.fibers f).call = [e] := by
      intro hx
      rw [hx] at he
      cases he
    unfold Written at hw
    split at hw
    · exact hw.elim (fun hw => hone hw.2) fun hw => hzero hw.2.2
    · exact hw.elim (fun ⟨_, _, _, hw⟩ => hone hw) fun hw => hzero hw.2.2.2

theorem Standing.events_eq {e : Event V} (h : Standing s f)
    (he : e ∈ s.events f (s.fibers f).call) :
    s.events f (s.fibers f).call = [e] ∧ (s.fibers f).pc.busy = true := by
  unfold Standing at h
  cases hpc : (s.fibers f).pc <;> rw [hpc] at h
  case idle | start | scan | tryCase =>
    rw [h] at he
    cases he
  case locked ch =>
    obtain ⟨sec, -, rfl, hev, -, -⟩ := h
    rw [hev] at he ⊢
    refine ⟨?_, rfl⟩
    unfold Sect.given at he ⊢
    split at he
    · rw [List.mem_singleton.mp he]
    · rw [List.mem_singleton.mp he]
    · cases he
  all_goals exact ⟨h.events_eq he, rfl⟩

theorem Ledger.kept {e : Event V} (h : Ledger s e.fiber) (he : e ∈ s.hist) :
    s.events e.fiber e.call = [e] ∧
      ((∃ op, s.results e.fiber e.call = some (op, e.outcome)) ∨
        (e.call = (s.fibers e.fiber).call ∧ (s.fibers e.fiber).pc.busy = true)) := by
  have hmem : e ∈ s.events e.fiber e.call := by
    rw [State.events, List.mem_filter]
    exact ⟨he, by simp⟩
  rcases Nat.lt_trichotomy e.call (s.fibers e.fiber).call with hlt | heq | hgt
  · obtain ⟨⟨op, out⟩, hr⟩ := Option.ne_none_iff_exists'.mp (h.returned e.call hlt)
    obtain ⟨hev, hout⟩ := (h.results e.call op out hr).2.outcome hmem
    exact ⟨hev, .inl ⟨op, hout ▸ hr⟩⟩
  · rw [heq] at hmem ⊢
    obtain ⟨hev, hbusy⟩ := h.standing.events_eq hmem
    exact ⟨hev, .inr ⟨rfl, hbusy⟩⟩
  · rw [h.future e.call hgt] at hmem
    cases hmem

/-- The invariants of the runs in which claimers are waited for. -/
structure Books (s : State V) : Prop where
  inv : Inv s
  conserved : Conserved s
  attended : Attended s
  ledger : ∀ f, Ledger s f

theorem Books.init (h : Initial s) : Books s := by
  obtain ⟨hchan, hfib, hhist, hres⟩ := h
  have hev : ∀ f n, s.events f n = [] := by
    intro f n
    rw [State.events, hhist]
    rfl
  refine ⟨.init ⟨hchan, hfib, hhist, hres⟩, fun ch => ?_, ⟨fun ch e w hw => ?_, fun f hf => ?_⟩,
    fun f => ⟨?_, fun n _ => hev f n, fun n hn => ?_, fun n op out hr => ?_⟩⟩
  · obtain ⟨cap, hc⟩ := hchan ch
    rw [hc, State.moved, State.moved, hhist]
    exact (Ring.contents_eq_nil rfl).symm
  · obtain ⟨cap, hc⟩ := hchan ch
    rw [Holds, hc] at hw
    cases hw.1
  · rw [(hfib f).1] at hf
    cases hf
  · unfold Standing
    rw [(hfib f).1]
    exact hev f _
  · rw [(hfib f).2] at hn
    exact absurd hn (Nat.not_lt_zero n)
  · rw [hres] at hr
    cases hr

theorem Books.step {goroutine : ℕ → Bool} {a : Action V} (h : Books s) (htime : InTime s a)
    (hs : Select.step goroutine s a = some t) : Books t := by
  have hm := step_move hs
  refine ⟨h.inv.step hm, conserved_step h.inv h.conserved hm, h.attended.step h.inv ?_ hm,
    ledger_step h.ledger h.inv h.attended hm⟩
  cases a with
  | advance f => exact htime
  | call f op =>
    intro hpc
    change (s.fibers f).pc = .selParked at hpc
    simp [Select.step, hpc] at hs
  | draw f start stride =>
    intro hpc
    change (s.fibers f).pc = .selParked at hpc
    simp [Select.step, hpc] at hs

/-- **A call completes exactly what it reports.** In every run in which no
resumed select loads `fired_case` while its claimer is at work. -/
theorem completes_exactly_once {goroutine : ℕ → Bool}
    (h : Reachable ((system goroutine).restrict InTime) s) : Exactly s := by
  have hb : Books s := by
    induction h with
    | start hs => exact Books.init hs
    | next _ hs ih =>
      obtain ⟨htime, hs⟩ := System.restrict_step.mp hs
      exact ih.step htime hs
  refine ⟨fun f n op out hr => ((hb.ledger f).results n op out hr).2,
    fun e he => (hb.ledger e.fiber).kept he, hb.conserved, fun ch w hw => ?_⟩
  rcases hw with ⟨d, hw⟩ | ⟨e, hw⟩
  · exact ⟨hb.inv.linked.park_eq hw, (Pc.links_inPark (hb.inv.linked.links ch d w hw)).2⟩
  · exact ⟨hb.attended.park_eq hw, Pc.awaits_inPark (hb.attended.live ch e w hw).2⟩

/-- A select of a receive and a send is claimed by a sender and resumed after
the wake. -/
theorem completes_exactly_once_claimed :
    ∃ s : State ℕ, Reachable ((system fun _ => true).restrict InTime) s ∧ Exactly s ∧
      s.results 0 0 = some (.select [⟨0, .recv⟩, ⟨1, .send 5⟩] false, .received 0 (some 9)) ∧
      s.results 1 0 = some (.plain ⟨0, .send 9⟩ true, .sent 0) := by
  have hr : Reachable ((system fun _ => true).restrict InTime) _ :=
    reachable_of_run _ (.flatten [[.call 0 (.select [⟨0, .recv⟩, ⟨1, .send 5⟩] false), .advance 0,
      .draw 0 0 1], .replicate 8 (.advance 0), [.call 1 (.plain ⟨0, .send 9⟩ true)],
      .replicate 4 (.advance 1), .replicate 5 (.advance 0)]) unbuffered_initial rfl
  exact ⟨_, hr, completes_exactly_once hr, rfl, rfl⟩

/-- A select is claimed by a receiver, and a stale wake resumes it before the
receiver has written its record: it reports the open channel closed, and the
receiver goes on with a record that is gone. -/
theorem select_returns_early :
    ∃ s : State ℕ, Reachable (system fun _ => true) s ∧
      s.results 1 0 = some (.select [⟨0, .send 7⟩] false, .sendClosed 0) ∧
      (s.chans 0).closed = false ∧ (∃ e, Holds s 0 e ⟨⟨1, 0, 0⟩, 0, true, 0, .tx⟩) ∧
      ¬ Exactly s := by
  have hr : Reachable (system fun _ => true) _ :=
    reachable_of_run _ (.flatten [[.call 1 (.select [⟨0, .send 7⟩] false), .advance 1, .draw 1 0 1],
      .replicate 5 (.advance 1), [.call 0 (.plain ⟨0, .recv⟩ true)], .replicate 2 (.advance 0),
      .replicate 4 (.advance 1)]) unbuffered_initial rfl
  refine ⟨_, hr, rfl, rfl, ⟨_, rfl, rfl⟩, fun h => ?_⟩
  obtain ⟨ch, v, hcase, hclosed, -⟩ := h.returned 1 0 _ _ rfl
  cases hcase
  cases hclosed

end Stackweave.Channel.Select
