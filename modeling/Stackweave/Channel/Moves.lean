import Stackweave.Channel.Select

/-!
# What a step of the channel code can do

`Move` lists the branches of `step` with what the code has checked in each, and
`step_move` says that there are no others. The invariants of the channels are
proved over its cases.
-/

namespace Stackweave.Channel.Select

open Transition

variable {V : Type*}

/-- The fiber is about to take the lock for the case `c`. -/
inductive AtCase (s : State V) (f : ℕ) : Caller → Case V → Prop
  | plain {c : Case V} {b : Bool} :
    (s.fibers f).pc = .start → (s.fibers f).op = .plain c b → AtCase s f .plain c
  | scan {stride k i : ℕ} {c : Case V} {cs : List (Case V)} {d : Bool} :
    (s.fibers f).pc = .tryCase stride k i → (s.fibers f).op = .select cs d →
      cs[i]? = some c → AtCase s f (.scan stride k i) c

/-- Set up the records and the `fired_case` of a new park. -/
def State.newPark (s : State V) (f : ℕ) (cases : List (Case V)) : State V :=
  { s.setFired (s.park f) none with
    records := fun w =>
      match cases[w.case]? with
      | some c => if w.park = s.park f then c.dir.record else s.records w
      | none => s.records w }

inductive Move (s : State V) (f : ℕ) : State V → Prop
  | call {op : Op V} (hpc : (s.fibers f).pc = .idle) :
    Move s f (s.setFiber f { s.fibers f with op := op, retries := 0, pc := .start })
  | toScan {cs : List (Case V)} {d : Bool} (hpc : (s.fibers f).pc = .start)
      (hop : (s.fibers f).op = .select cs d) :
    Move s f (s.goto f .scan)
  | draw {start stride : ℕ} (hpc : (s.fibers f).pc = .scan) :
    Move s f (s.goto f (.tryCase stride 0 start))
  | sendClosed {caller : Caller} {c : Case V} {v : V} (hat : AtCase s f caller c)
      (hdir : c.dir = .send v) (hclosed : (s.chans c.ch).closed = true) :
    Move s f (s.ret f (.sendClosed caller.index))
  | enterHand {caller : Caller} {c : Case V} {v : V} (hat : AtCase s f caller c)
      (hlock : (s.chans c.ch).lock = none) (hdir : c.dir = .send v)
      (hopen : (s.chans c.ch).closed = false) :
    Move s f (s.lockAs c.ch (s.chans c.ch) ⟨f, caller, .hand v, .popping⟩)
  | enterGot {caller : Caller} {c : Case V} (hat : AtCase s f caller c)
      (hlock : (s.chans c.ch).lock = none) (hdir : c.dir = .recv)
      (hlen : 0 < (s.chans c.ch).ring.len) :
    Move s f ((s.log [s.event f caller.index c.ch .rx (bufPop (s.chans c.ch).ring).1]).lockAs c.ch
      { s.chans c.ch with ring := (bufPop (s.chans c.ch).ring).2 }
      ⟨f, caller, .got (bufPop (s.chans c.ch).ring).1, .popping⟩)
  | enterTake {caller : Caller} {c : Case V} (hat : AtCase s f caller c)
      (hlock : (s.chans c.ch).lock = none) (hdir : c.dir = .recv)
      (hlen : (s.chans c.ch).ring.len = 0) :
    Move s f (s.lockAs c.ch (s.chans c.ch) ⟨f, caller, .take, .popping⟩)
  | retStart {out : Outcome V} (hpc : (s.fibers f).pc = .start)
      (hout : out = .closeClosed ∨ out = .noCases) :
    Move s f (s.ret f out)
  | enterClose {ch : ℕ} (hpc : (s.fibers f).pc = .start) (hop : (s.fibers f).op = .close ch)
      (hlock : (s.chans ch).lock = none) :
    Move s f (s.lockAs ch { s.chans ch with closed := true } ⟨f, .plain, .closeTx, .popping⟩)
  | retScan {out : Outcome V} {stride k i : ℕ} (hpc : (s.fibers f).pc = .tryCase stride k i)
      (hout : out = .wouldBlock ∨ out = .noGoroutine) :
    Move s f (s.ret f out)
  | newPark {stride k i : ℕ} {cs : List (Case V)} {d : Bool}
      (hpc : (s.fibers f).pc = .tryCase stride k i) (hop : (s.fibers f).op = .select cs d) :
    Move s f ((s.newPark f cs).goto f (.install 0))
  | tombstone {ch : ℕ} {sec : Sect V} {w : Waiter} {rest : List Waiter} {k : ℕ}
      (hsec : (s.chans ch).lock = some sec) (hf : sec.fiber = f) (hst : sec.stage = .popping)
      (hq : (s.chans ch).queue sec.job.side = w :: rest) (hsel : w.select = true)
      (hfired : s.fired w.park = some k) :
    Move s f (s.stay ch ((s.chans ch).setQueue rest sec.job.side) sec)
  | claimPlain {ch : ℕ} {sec : Sect V} {w : Waiter} {rest : List Waiter}
      (hsec : (s.chans ch).lock = some sec) (hf : sec.fiber = f) (hst : sec.stage = .popping)
      (hq : (s.chans ch).queue sec.job.side = w :: rest) (hsel : w.select = false) :
    Move s f (s.stay ch ((s.chans ch).setQueue rest sec.job.side)
      { sec with stage := .claimed w })
  | claimSelect {ch : ℕ} {sec : Sect V} {w : Waiter} {rest : List Waiter}
      (hsec : (s.chans ch).lock = some sec) (hf : sec.fiber = f) (hst : sec.stage = .popping)
      (hq : (s.chans ch).queue sec.job.side = w :: rest) (hsel : w.select = true)
      (hfired : s.fired w.park = none) :
    Move s f ((s.setFired w.park (some w.case)).stay ch
      ((s.chans ch).setQueue rest sec.job.side) { sec with stage := .claimed w })
  | bufferSend {ch : ℕ} {sec : Sect V} {v : V} (hsec : (s.chans ch).lock = some sec)
      (hf : sec.fiber = f) (hst : sec.stage = .popping) (hjob : sec.job = .hand v)
      (hq : (s.chans ch).receivers = [])
      (hroom : (s.chans ch).ring.len < (s.chans ch).ring.cap) :
    Move s f (((s.log [s.event f sec.caller.index ch .tx (some v)]).unlock ch
      { s.chans ch with ring := bufPush (s.chans ch).ring (some v) }).ret f
        (.sent sec.caller.index))
  | recvClosed {ch : ℕ} {sec : Sect V} (hsec : (s.chans ch).lock = some sec)
      (hf : sec.fiber = f) (hst : sec.stage = .popping) (hjob : sec.job = .take)
      (hq : (s.chans ch).senders = []) (hclosed : (s.chans ch).closed = true) :
    Move s f ((s.unlock ch (s.chans ch)).ret f (.recvClosed sec.caller.index))
  | gotDone {ch : ℕ} {sec : Sect V} {p : Option V} (hsec : (s.chans ch).lock = some sec)
      (hf : sec.fiber = f) (hst : sec.stage = .popping) (hjob : sec.job = .got p)
      (hq : (s.chans ch).senders = []) :
    Move s f ((s.unlock ch (s.chans ch)).ret f (.received sec.caller.index p))
  | closeNext {ch : ℕ} {sec : Sect V} (hsec : (s.chans ch).lock = some sec)
      (hf : sec.fiber = f) (hst : sec.stage = .popping) (hjob : sec.job = .closeTx)
      (hq : (s.chans ch).senders = []) :
    Move s f (s.stay ch (s.chans ch) { sec with job := .closeRx })
  | closeDone {ch : ℕ} {sec : Sect V} (hsec : (s.chans ch).lock = some sec)
      (hf : sec.fiber = f) (hst : sec.stage = .popping) (hjob : sec.job = .closeRx)
      (hq : (s.chans ch).receivers = []) :
    Move s f ((s.unlock ch (s.chans ch)).ret f .closeDone)
  | refuse {ch : ℕ} {sec : Sect V} {out : Outcome V} (hsec : (s.chans ch).lock = some sec)
      (hf : sec.fiber = f) (hst : sec.stage = .popping)
      (hjob : sec.job = .take ∨ ∃ v, sec.job = .hand v)
      (hout : out = .wouldBlock ∨ out = .noGoroutine) :
    Move s f ((s.unlock ch (s.chans ch)).ret f out)
  | parkPlain {ch : ℕ} {sec : Sect V} {c : Case V} {b : Bool}
      (hsec : (s.chans ch).lock = some sec) (hf : sec.fiber = f) (hst : sec.stage = .popping)
      (hop : (s.fibers f).op = .plain c b) (hcaller : sec.caller = .plain)
      (hjob : (∃ v, sec.job = .hand v ∧ (s.chans ch).receivers = [] ∧
          ((s.chans ch).ring.cap ≤ (s.chans ch).ring.len)) ∨
        (sec.job = .take ∧ (s.chans ch).senders = [] ∧ (s.chans ch).closed = false)) :
    Move s f (((s.setRecord (s.waiter f 0 c) c.dir.record).unlock ch
      ((s.chans ch).setQueue ((s.chans ch).queue c.dir.side ++ [s.waiter f 0 c]) c.dir.side)).goto
        f .parked)
  | nextCase {ch : ℕ} {sec : Sect V} {stride k i i' : ℕ} (hsec : (s.chans ch).lock = some sec)
      (hf : sec.fiber = f) (hst : sec.stage = .popping)
      (hcaller : sec.caller = .scan stride k i)
      (hjob : sec.job = .take ∨ ∃ v, sec.job = .hand v) :
    Move s f ((s.unlock ch (s.chans ch)).goto f (.tryCase stride (k + 1) i'))
  | fillHand {ch : ℕ} {sec : Sect V} {w : Waiter} {v : V} (hsec : (s.chans ch).lock = some sec)
      (hf : sec.fiber = f) (hst : sec.stage = .claimed w) (hjob : sec.job = .hand v) :
    Move s f (((s.log [s.event f sec.caller.index ch .tx (some v), w.event (some v)]).setRecord w
      { s.records w with value := some v, ok := 1, filled := true }).stay ch (s.chans ch)
        { sec with stage := .waking w })
  | fillTake {ch : ℕ} {sec : Sect V} {w : Waiter} (hsec : (s.chans ch).lock = some sec)
      (hf : sec.fiber = f) (hst : sec.stage = .claimed w) (hjob : sec.job = .take) :
    Move s f (((s.log [w.event (s.records w).value,
        s.event f sec.caller.index ch .rx (s.records w).value]).setRecord w
      { s.records w with value := none, sendResult := 0, filled := true }).stay ch (s.chans ch)
        { sec with stage := .waking w, job := .got (s.records w).value })
  | fillGot {ch : ℕ} {sec : Sect V} {w : Waiter} {p : Option V}
      (hsec : (s.chans ch).lock = some sec) (hf : sec.fiber = f) (hst : sec.stage = .claimed w)
      (hjob : sec.job = .got p) :
    Move s f (((s.log [w.event (s.records w).value]).setRecord w
      { s.records w with value := none, sendResult := 0, filled := true }).stay ch
        { s.chans ch with ring := bufPush (s.chans ch).ring (s.records w).value }
        { sec with stage := .waking w })
  | fillCloseTx {ch : ℕ} {sec : Sect V} {w : Waiter} (hsec : (s.chans ch).lock = some sec)
      (hf : sec.fiber = f) (hst : sec.stage = .claimed w) (hjob : sec.job = .closeTx) :
    Move s f ((s.setRecord w { s.records w with sendResult := -1, filled := true }).stay ch
      (s.chans ch) { sec with stage := .waking w })
  | fillCloseRx {ch : ℕ} {sec : Sect V} {w : Waiter} (hsec : (s.chans ch).lock = some sec)
      (hf : sec.fiber = f) (hst : sec.stage = .claimed w) (hjob : sec.job = .closeRx) :
    Move s f ((s.setRecord w { s.records w with value := none, ok := 0, filled := true }).stay ch
      (s.chans ch) { sec with stage := .waking w })
  | wakeHand {ch : ℕ} {sec : Sect V} {w : Waiter} {v : V} (hsec : (s.chans ch).lock = some sec)
      (hf : sec.fiber = f) (hst : sec.stage = .waking w) (hjob : sec.job = .hand v) :
    Move s f ((s.unlock ch (s.chans ch)).ret f (.sent sec.caller.index))
  | wakeGot {ch : ℕ} {sec : Sect V} {w : Waiter} {p : Option V}
      (hsec : (s.chans ch).lock = some sec) (hf : sec.fiber = f) (hst : sec.stage = .waking w)
      (hjob : sec.job = .got p) :
    Move s f ((s.unlock ch (s.chans ch)).ret f (.received sec.caller.index p))
  | wakeClose {ch : ℕ} {sec : Sect V} {w : Waiter} (hsec : (s.chans ch).lock = some sec)
      (hf : sec.fiber = f) (hst : sec.stage = .waking w)
      (hjob : sec.job = .closeTx ∨ sec.job = .closeRx) :
    Move s f (s.stay ch (s.chans ch) { sec with stage := .popping })
  | resumeSend {c : Case V} {b : Bool} {v : V} (hpc : (s.fibers f).pc = .parked)
      (hop : (s.fibers f).op = .plain c b) (hdir : c.dir = .send v)
      (hlock : (s.chans c.ch).lock = none)
      (hout : s.waiter f 0 c ∉ (s.chans c.ch).queue c.dir.side) :
    Move s f (s.ret f (if (s.records (s.waiter f 0 c)).sendResult = 0 then .sent 0
      else .sendClosed 0))
  | resumeRecv {c : Case V} {b : Bool} (hpc : (s.fibers f).pc = .parked)
      (hop : (s.fibers f).op = .plain c b) (hdir : c.dir = .recv)
      (hlock : (s.chans c.ch).lock = none)
      (hout : s.waiter f 0 c ∉ (s.chans c.ch).queue c.dir.side) :
    Move s f (s.ret f (if (s.records (s.waiter f 0 c)).ok = 1 then
      .received 0 (s.records (s.waiter f 0 c)).value else .recvClosed 0))
  | installDone {i : ℕ} (hpc : (s.fibers f).pc = .install i)
      (hcase : (s.fibers f).op.cases[i]? = none) :
    Move s f (s.goto f .selParked)
  | installReady {i : ℕ} (hpc : (s.fibers f).pc = .install i) :
    Move s f (s.goto f (.abort i))
  | installPush {i : ℕ} {c : Case V} (hpc : (s.fibers f).pc = .install i)
      (hcase : (s.fibers f).op.cases[i]? = some c) (hlock : (s.chans c.ch).lock = none)
      (hready : ready (s.chans c.ch) (s.park f) c.dir = false) :
    Move s f ((s.setChan c.ch ((s.chans c.ch).setQueue
      ((s.chans c.ch).queue c.dir.side ++ [s.waiter f i c]) c.dir.side)).goto f
        (.install (i + 1)))
  | abortWin {i : ℕ} (hpc : (s.fibers f).pc = .abort i) (hfired : s.fired (s.park f) = none) :
    Move s f ((s.setFired (s.park f) (some i)).goto f (.evict .abort 0))
  | abortLost {i k : ℕ} (hpc : (s.fibers f).pc = .abort i)
      (hfired : s.fired (s.park f) = some k) :
    Move s f (s.goto f .selParked)
  | loadFired {k : ℕ} (hpc : (s.fibers f).pc = .selParked)
      (hfired : s.fired (s.park f) = some k) :
    Move s f (s.goto f (.evict (.final k) 0))
  | loadNone (hpc : (s.fibers f).pc = .selParked) (hfired : s.fired (s.park f) = none) :
    Move s f (s.goto f (.evict .spurious 0))
  | evictSkip {j : ℕ} (hpc : (s.fibers f).pc = .evict (.final j) j) :
    Move s f (s.goto f (.evict (.final j) (j + 1)))
  | evictErase {why : Evict} {j : ℕ} {c : Case V} (hpc : (s.fibers f).pc = .evict why j)
      (hcase : (s.fibers f).op.cases[j]? = some c) (hwhy : why ≠ .final j)
      (hlock : (s.chans c.ch).lock = none) :
    Move s f ((s.setChan c.ch ((s.chans c.ch).setQueue
      (((s.chans c.ch).queue c.dir.side).erase (s.waiter f j c)) c.dir.side)).goto f
        (.evict why (j + 1)))
  | evictRetry {why : Evict} {j : ℕ} (hpc : (s.fibers f).pc = .evict why j)
      (hcase : (s.fibers f).op.cases[j]? = none)
      (hwhy : why = .abort ∨ (why = .spurious ∧ s.fired (s.park f) = none)) :
    Move s f (s.retry f)
  | evictFired {j k : ℕ} (hpc : (s.fibers f).pc = .evict .spurious j)
      (hcase : (s.fibers f).op.cases[j]? = none) (hfired : s.fired (s.park f) = some k) :
    Move s f (s.goto f (.evict (.final k) 0))
  | evictDone {j k : ℕ} (hpc : (s.fibers f).pc = .evict (.final k) j)
      (hcase : (s.fibers f).op.cases[j]? = none) :
    Move s f (s.goto f (.finish k))
  | finishSend {k : ℕ} {c : Case V} {v : V} (hpc : (s.fibers f).pc = .finish k)
      (hcase : (s.fibers f).op.cases[k]? = some c) (hdir : c.dir = .send v) :
    Move s f (s.ret f (if (s.records (s.waiter f k c)).sendResult = 0 then .sent k
      else .sendClosed k))
  | finishRecv {k : ℕ} {c : Case V} {v : V} (hpc : (s.fibers f).pc = .finish k)
      (hcase : (s.fibers f).op.cases[k]? = some c) (hdir : c.dir = .recv)
      (hvalue : (s.records (s.waiter f k c)).value = some v) :
    Move s f (s.ret f (.received k (some v)))
  | finishRetry {k : ℕ} {c : Case V} (hpc : (s.fibers f).pc = .finish k)
      (hcase : (s.fibers f).op.cases[k]? = some c) (hdir : c.dir = .recv)
      (hvalue : (s.records (s.waiter f k c)).value = none) :
    Move s f (s.retry f)

/-! ## Every step is one of these -/

section Inversion

variable {goroutine : ℕ → Bool} {s t : State V} {f : ℕ}

theorem enter_move {caller : Caller} {c : Case V} (hat : AtCase s f caller c)
    (h : enter s f caller c = some t) : Move s f t := by
  simp only [enter] at h
  split at h
  case isTrue => cases h
  case isFalse hlock =>
    rw [Option.not_isSome_iff_eq_none] at hlock
    split at h
    case h_1 v hdir =>
      split at h
      case isTrue hclosed =>
        cases h
        exact .sendClosed hat hdir hclosed
      case isFalse hopen =>
        cases h
        exact .enterHand hat hlock hdir (Bool.not_eq_true _ ▸ hopen)
    case h_2 hdir =>
      split at h
      case isTrue hlen =>
        cases h
        exact .enterGot hat hlock hdir hlen
      case isFalse hlen =>
        cases h
        exact .enterTake hat hlock hdir (Nat.eq_zero_of_not_pos hlen)

theorem startCall_move (hpc : (s.fibers f).pc = .start) (h : startCall s f = some t) :
    Move s f t := by
  unfold startCall at h
  split at h
  case h_1 c b hop => exact enter_move (.plain hpc hop) h
  case h_2 ch hop =>
    simp only [enterClose] at h
    split at h
    case isTrue => cases h
    case isFalse hlock =>
      rw [Option.not_isSome_iff_eq_none] at hlock
      split at h
      case isTrue =>
        cases h
        exact .retStart hpc (.inl rfl)
      case isFalse =>
        cases h
        exact .enterClose hpc hop hlock
  case h_3 cs d hop =>
    split at h
    case isTrue =>
      cases h
      exact .retStart hpc (.inr rfl)
    case isFalse =>
      cases h
      exact .toScan hpc hop

theorem tryCase_move {stride k i : ℕ} (hpc : (s.fibers f).pc = .tryCase stride k i)
    (h : tryCase goroutine s f stride k i = some t) : Move s f t := by
  simp only [tryCase] at h
  split at h
  case h_1 cs d hop =>
    split at h
    case isTrue =>
      split at h
      case h_1 c hc => exact enter_move (.scan hpc hop hc) h
      case h_2 => cases h
    case isFalse =>
      split at h
      case isTrue =>
        cases h
        exact .retScan hpc (.inl rfl)
      case isFalse =>
        split at h
        case isTrue =>
          cases h
          exact .retScan hpc (.inr rfl)
        case isFalse =>
          cases h
          exact .newPark hpc hop
  case h_2 => cases h

variable {ch : ℕ} {sec : Sect V}

theorem wouldBlock_move (hsec : (s.chans ch).lock = some sec)
    (hst : sec.stage = .popping)
    (hjob : (∃ v, sec.job = .hand v ∧ (s.chans ch).receivers = [] ∧
        ((s.chans ch).ring.cap ≤ (s.chans ch).ring.len)) ∨
      (sec.job = .take ∧ (s.chans ch).senders = [] ∧ (s.chans ch).closed = false))
    (h : wouldBlock goroutine s ch sec = some t) : Move s sec.fiber t := by
  have hjob' : sec.job = .take ∨ ∃ v, sec.job = .hand v := by
    rcases hjob with ⟨v, hv, -⟩ | ⟨hj, -⟩
    · exact .inr ⟨v, hv⟩
    · exact .inl hj
  simp only [wouldBlock] at h
  split at h
  case h_1 c b hcaller hop =>
    split at h
    case isTrue =>
      cases h
      exact .refuse hsec rfl hst hjob' (.inl rfl)
    case isFalse =>
      split at h
      case isTrue =>
        cases h
        exact .refuse hsec rfl hst hjob' (.inr rfl)
      case isFalse =>
        cases h
        exact .parkPlain hsec rfl hst hop hcaller hjob
  case h_2 hcaller =>
    cases h
    exact .nextCase hsec rfl hst hcaller hjob'
  case h_3 => cases h

theorem exhausted_move (hsec : (s.chans ch).lock = some sec)
    (hst : sec.stage = .popping) (hq : (s.chans ch).queue sec.job.side = [])
    (h : exhausted goroutine s ch sec = some t) : Move s sec.fiber t := by
  simp only [exhausted] at h
  split at h
  case h_1 v hjob =>
    rw [hjob] at hq
    split at h
    case isTrue hroom =>
      cases h
      exact .bufferSend hsec rfl hst hjob hq hroom.2
    case isFalse hroom =>
      exact wouldBlock_move hsec hst (.inl ⟨v, hjob, hq, by omega⟩) h
  case h_2 hjob =>
    rw [hjob] at hq
    split at h
    case isTrue hclosed =>
      cases h
      exact .recvClosed hsec rfl hst hjob hq hclosed
    case isFalse hopen =>
      exact wouldBlock_move hsec hst (.inr ⟨hjob, hq, Bool.not_eq_true _ ▸ hopen⟩) h
  case h_3 p hjob =>
    rw [hjob] at hq
    cases h
    exact .gotDone hsec rfl hst hjob hq
  case h_4 hjob =>
    rw [hjob] at hq
    cases h
    exact .closeNext hsec rfl hst hjob hq
  case h_5 hjob =>
    rw [hjob] at hq
    cases h
    exact .closeDone hsec rfl hst hjob hq

theorem popRound_move (hsec : (s.chans ch).lock = some sec)
    (hst : sec.stage = .popping) (h : popRound goroutine s ch sec = some t) :
    Move s sec.fiber t := by
  simp only [popRound] at h
  split at h
  case h_1 hq => exact exhausted_move hsec hst hq h
  case h_2 w rest hq =>
    split at h
    case isTrue hsel =>
      cases h
      exact .claimPlain hsec rfl hst hq (by simpa using hsel)
    case isFalse hsel =>
      have hsel : w.select = true := by simpa using hsel
      split at h
      case h_1 hfired =>
        cases h
        exact .claimSelect hsec rfl hst hq hsel hfired
      case h_2 k hfired =>
        cases h
        exact .tombstone hsec rfl hst hq hsel hfired

theorem fill_move {w : Waiter} (hsec : (s.chans ch).lock = some sec)
    (hst : sec.stage = .claimed w) (h : fill s ch sec w = some t) : Move s sec.fiber t := by
  simp only [fill] at h
  split at h <;> cases h
  case h_1 hjob => exact .fillHand hsec rfl hst hjob
  case h_2 hjob => exact .fillTake hsec rfl hst hjob
  case h_3 hjob => exact .fillGot hsec rfl hst hjob
  case h_4 hjob => exact .fillCloseTx hsec rfl hst hjob
  case h_5 hjob => exact .fillCloseRx hsec rfl hst hjob

theorem wakeWaiter_move {w : Waiter}
    (hsec : (s.chans ch).lock = some sec) (hst : sec.stage = .waking w)
    (h : wakeWaiter s ch sec = some t) : Move s sec.fiber t := by
  simp only [wakeWaiter] at h
  split at h <;> cases h
  case h_1 hjob => exact .wakeHand hsec rfl hst hjob
  case h_2 hjob => exact .wakeGot hsec rfl hst hjob
  case h_3 hjob => exact .wakeClose hsec rfl hst (.inl hjob)
  case h_4 hjob => exact .wakeClose hsec rfl hst (.inr hjob)

theorem sectionStep_move (h : sectionStep goroutine s f ch = some t) : Move s f t := by
  unfold sectionStep at h
  split at h
  case h_1 => cases h
  case h_2 sec hsec =>
    split at h
    case isTrue => cases h
    case isFalse hf =>
      have hf : sec.fiber = f := not_not.mp hf
      subst hf
      split at h
      case h_1 hst => exact popRound_move hsec hst h
      case h_2 w hst => exact fill_move hsec hst h
      case h_3 w hst => exact wakeWaiter_move hsec hst h

theorem resumePlain_move (hpc : (s.fibers f).pc = .parked) (h : resumePlain s f = some t) :
    Move s f t := by
  simp only [resumePlain] at h
  split at h
  case h_1 c b hop =>
    split at h
    case isTrue => cases h
    case isFalse hfree =>
      rw [not_or, Option.not_isSome_iff_eq_none] at hfree
      split at h
      case h_1 v hdir =>
        cases h
        exact .resumeSend hpc hop hdir hfree.1 hfree.2
      case h_2 hdir =>
        cases h
        exact .resumeRecv hpc hop hdir hfree.1 hfree.2
  case h_2 => cases h

theorem installCase_move {i : ℕ} (hpc : (s.fibers f).pc = .install i)
    (h : installCase s f i = some t) : Move s f t := by
  simp only [installCase] at h
  split at h
  case h_1 hcase =>
    cases h
    exact .installDone hpc hcase
  case h_2 c hcase =>
    split at h
    case isTrue => cases h
    case isFalse hlock =>
      rw [Option.not_isSome_iff_eq_none] at hlock
      split at h
      case isTrue =>
        cases h
        exact .installReady hpc
      case isFalse hready =>
        cases h
        exact .installPush hpc hcase hlock (Bool.not_eq_true _ ▸ hready)

theorem evictCase_move {why : Evict} {j : ℕ} (hpc : (s.fibers f).pc = .evict why j)
    (h : evictCase s f why j = some t) : Move s f t := by
  simp only [evictCase] at h
  split at h
  case h_1 c hcase =>
    split at h
    case isTrue hwhy =>
      cases h
      subst hwhy
      exact .evictSkip hpc
    case isFalse hwhy =>
      split at h
      case isTrue => cases h
      case isFalse hlock =>
        cases h
        exact .evictErase hpc hcase hwhy (Option.not_isSome_iff_eq_none.mp hlock)
  case h_2 hcase =>
    split at h
    case h_1 =>
      cases h
      exact .evictRetry hpc hcase (.inl rfl)
    case h_2 =>
      split at h
      case h_1 hfired =>
        cases h
        exact .evictRetry hpc hcase (.inr ⟨rfl, hfired⟩)
      case h_2 k hfired =>
        cases h
        exact .evictFired hpc hcase hfired
    case h_3 k =>
      cases h
      exact .evictDone hpc hcase

theorem finishSelect_move {k : ℕ} (hpc : (s.fibers f).pc = .finish k)
    (h : finishSelect s f k = some t) : Move s f t := by
  simp only [finishSelect] at h
  split at h
  case h_1 => cases h
  case h_2 c hcase =>
    split at h
    case h_1 v hdir =>
      cases h
      exact .finishSend hpc hcase hdir
    case h_2 v hdir hvalue =>
      cases h
      exact .finishRecv hpc hcase hdir hvalue
    case h_3 hdir hvalue =>
      cases h
      exact .finishRetry hpc hcase hdir hvalue

end Inversion

/-- The fiber an action belongs to. -/
def Action.fiber : Action V → ℕ
  | .call f _ | .draw f _ _ | .advance f => f

theorem step_move {goroutine : ℕ → Bool} {s t : State V} {a : Action V}
    (h : step goroutine s a = some t) : Move s a.fiber t := by
  cases a with
  | call f op =>
    simp only [step] at h
    split at h
    case isTrue hpc =>
      cases h
      exact .call hpc
    case isFalse => cases h
  | draw f start stride =>
    simp only [step] at h
    split at h
    case isTrue hpc =>
      cases h
      exact .draw hpc.1
    case isFalse => cases h
  | advance f =>
    simp only [step] at h
    split at h
    case h_1 => cases h
    case h_2 => cases h
    case h_3 hpc => exact startCall_move hpc h
    case h_4 hpc => exact tryCase_move hpc h
    case h_5 => exact sectionStep_move h
    case h_6 hpc => exact resumePlain_move hpc h
    case h_7 hpc => exact installCase_move hpc h
    case h_8 i hpc =>
      cases h
      simp only [abortInstall]
      split
      case h_1 hfired => exact .abortWin hpc hfired
      case h_2 k hfired => exact .abortLost hpc hfired
    case h_9 hpc =>
      cases h
      simp only [loadFired]
      split
      case h_1 k hfired => exact .loadFired hpc hfired
      case h_2 hfired => exact .loadNone hpc hfired
    case h_10 hpc => exact evictCase_move hpc h
    case h_11 hpc => exact finishSelect_move hpc h

end Stackweave.Channel.Select
