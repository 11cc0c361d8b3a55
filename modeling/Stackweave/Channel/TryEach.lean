import Stackweave.Channel.Settled
import Stackweave.Channel.VisitOrder

/-!
# The fast path of a select

`select_try_each` as a sequence of visits, each of one case under the lock of its
channel. A `Watch` follows one fiber and writes down, for the scan it is in or the
last one it was in, the visiting order and what every visit found and did, with the
channel as it was when the lock was taken and when it was given back.

`serve` is what a visit is for: the operation of the case on a channel whose dead
waiters are gone. A visit of the code meets other calls that claim the waiters it is
looking at through their other channels; `Examined` says that it does what `serve`
does, and that the waiters it discarded were dead.
-/

namespace Stackweave.Channel.Select

open Transition

variable {V : Type*}

/-- The queue in which a case looks for a partner. -/
def Dir.peer : Dir V → Side
  | .send _ => .rx
  | .recv => .tx

/-- The case can proceed: somebody in the queue can be claimed, the buffer has room or
a value, or the channel is closed. -/
def Fireable (fired : Park → Option ℕ) (c : Chan V) (dir : Dir V) : Prop :=
  c.closed = true ∨ (∃ x ∈ c.queue dir.peer, Claimable fired x) ∨
    match dir with
    | .send _ => 0 < c.ring.cap ∧ c.ring.len < c.ring.cap
    | .recv => 0 < c.ring.len

/-- The writes to the record of a receiver that is handed `x`. -/
def Record.hand (r : Record V) (x : V) : Record V :=
  { r with value := some x, ok := 1, filled := true }

/-- The writes to the record of a sender whose value is taken. -/
def Record.take (r : Record V) : Record V :=
  { r with value := none, sendResult := 0, filled := true }

/-- The operation of case `i` on a channel whose first waiter, if there is one, can be
claimed and has the record `r`: the channel after it, the new record, and the outcome
if the case can proceed. -/
def serve (c : Chan V) (i : ℕ) (r : Option (Record V)) :
    Dir V → Chan V × Option (Record V) × Option (Outcome V)
  | .send x =>
    if c.closed then (c, none, some (.sendClosed i))
    else
      match c.receivers with
      | _ :: rest => ({ c with receivers := rest }, r.map (·.hand x), some (.sent i))
      | [] =>
        if 0 < c.ring.cap ∧ c.ring.len < c.ring.cap then
          ({ c with ring := bufPush c.ring (some x) }, none, some (.sent i))
        else (c, none, none)
  | .recv =>
    if 0 < c.ring.len then
      let out := some (.received i (bufPop c.ring).1)
      match c.senders with
      | _ :: rest =>
        ({ c with ring := bufPush (bufPop c.ring).2 (r.bind (·.value)), senders := rest },
          r.map (·.take), out)
      | [] => ({ c with ring := (bufPop c.ring).2 }, none, out)
    else
      match c.senders with
      | _ :: rest =>
        ({ c with senders := rest }, r.map (·.take), some (.received i (r.bind (·.value))))
      | [] => (c, none, if c.closed then some (.recvClosed i) else none)

/-- One visit. `claim` is the waiter that was claimed, with `fired_case` of every park
just before; `read` and `wrote` are its record before and after the writes to it;
`fired` is taken when the lock is given back. -/
structure Visit (V : Type*) where
  case : ℕ
  before : Chan V
  dead : List Waiter
  claim : Option (Waiter × (Park → Option ℕ))
  read : Option (Record V)
  wrote : Option (Record V)
  fired : Park → Option ℕ
  after : Chan V
  out : Option (Outcome V)

def Visit.begin (i : ℕ) (c : Chan V) (fired : Park → Option ℕ) : Visit V :=
  { case := i, before := c, dead := [], claim := none, read := none, wrote := none
    fired := fired, after := c, out := none }

/-- The visit of the case `c` found the waiters `v.dead` dead at the head of the queue,
and did the operation of the case on what is left. A send on a closed channel does not
look at the queue. -/
structure Examined (c : Case V) (v : Visit V) (q : List Waiter) : Prop where
  queue : v.before.queue c.dir.peer = v.dead ++ q
  dead : ∀ x ∈ v.dead, x.select = true ∧ (v.fired x.park).isSome
  claim : ∀ x fired, v.claim = some (x, fired) → q.head? = some x ∧ Claimable fired x
  unclaimed : v.claim = none → q = [] ∨ (v.before.closed = true ∧ c.dir.side = .tx)
  served : serve (v.before.setQueue q c.dir.peer) v.case v.read c.dir = (v.after, v.wrote, v.out)

/-- The calls of one fiber under observation: the cases, the start and the stride of
its last scan, the number of the call, the visits and how the scan ended; `some none`
is the return of -1. -/
structure Watch (V : Type*) where
  s : State V
  cases : List (Case V)
  start : ℕ
  stride : ℕ
  call : ℕ
  visits : List (Visit V)
  cur : Option (Visit V)
  result : Option (Option (Outcome V))

namespace Watch

/-- The visit `v` ends with the step to `t`. -/
def leave (w : Watch V) (f : ℕ) (v : Visit V) (ch : ℕ) (t : State V) : Watch V :=
  let out := if (t.fibers f).pc = .idle then (t.results f w.call).map Prod.snd else none
  { w with
    visits := w.visits ++ [{ v with fired := w.s.fired, after := t.chans ch, out := out }]
    cur := none
    result := out.map some }

/-- What the step of the fiber to `t` means for its scan. -/
def note (w : Watch V) (f : ℕ) (t : State V) : Watch V :=
  match (w.s.fibers f).pc with
  | .tryCase _ k i =>
    if k < w.cases.length then
      match w.cases[i]? with
      | some c =>
        let v := Visit.begin i (w.s.chans c.ch) w.s.fired
        if (t.fibers f).pc = .idle then w.leave f v c.ch t else { w with cur := some v }
      | none => w
    else { w with result := some none }
  | .locked ch =>
    match w.cur, (w.s.chans ch).lock with
    | some v, some sec =>
      match sec.stage, (w.s.chans ch).queue sec.job.side with
      | .popping, x :: _ =>
        if x.select && (w.s.fired x.park).isSome then
          { w with cur := some { v with dead := v.dead ++ [x] } }
        else { w with cur := some { v with claim := some (x, w.s.fired) } }
      | .claimed x, _ =>
        { w with cur := some { v with read := some (w.s.records x), wrote := some (t.records x) } }
      | _, _ => w.leave f v ch t
    | _, _ => w
  | _ => w

def draw (w : Watch V) (f start stride : ℕ) : Watch V :=
  { w with
    cases := (w.s.fibers f).op.cases, start := start, stride := stride
    call := (w.s.fibers f).call, visits := [], cur := none, result := none }

def step (goroutine : ℕ → Bool) (f : ℕ) (w : Watch V) (a : Action V) : Option (Watch V) :=
  (Select.step goroutine w.s a).map fun t =>
    match a with
    | .draw g start stride => { if g = f then w.draw f start stride else w with s := t }
    | .advance g => { if g = f then w.note f t else w with s := t }
    | .call _ _ => { w with s := t }

end Watch

/-- The number of cases is an `int`, and so are the sums of indices that the draw leads
to. -/
def fits (w : Watch V) : Action V → Prop
  | .draw g start stride =>
    (w.s.fibers g).op.cases.length < 2 ^ 31 ∧ Fits (w.s.fibers g).op.cases.length start stride
  | _ => True

instance (w : Watch V) : (a : Action V) → Decidable (fits w a)
  | .draw g start stride => inferInstanceAs (Decidable ((w.s.fibers g).op.cases.length < 2 ^ 31 ∧
      Fits (w.s.fibers g).op.cases.length start stride))
  | .call _ _ => .isTrue trivial
  | .advance _ => .isTrue trivial

def watch (goroutine : ℕ → Bool) (f : ℕ) : System (Watch V) (Action V) where
  init w := Initial w.s ∧ w.visits = [] ∧ w.cur = none ∧ w.result = none
  step := Watch.step goroutine f

/-! ### Hits and misses -/

section Examined

variable {c : Case V} {v : Visit V} {q : List Waiter}

theorem serve_send (c : Chan V) (q : List Waiter) (i : ℕ) (r : Option (Record V)) (a : V) :
    serve (c.setQueue q .rx) i r (.send a) =
      if c.closed then (c.setQueue q .rx, none, some (.sendClosed i))
      else
        match q with
        | _ :: rest => (c.setQueue rest .rx, r.map (·.hand a), some (.sent i))
        | [] =>
          if 0 < c.ring.cap ∧ c.ring.len < c.ring.cap then
            ({ c.setQueue [] .rx with ring := bufPush c.ring (some a) }, none, some (.sent i))
          else (c.setQueue [] .rx, none, none) := by
  cases q <;> rfl

theorem serve_recv (c : Chan V) (q : List Waiter) (i : ℕ) (r : Option (Record V)) :
    serve (c.setQueue q .tx) i r .recv =
      if 0 < c.ring.len then
        match q with
        | _ :: rest =>
          ({ c.setQueue rest .tx with ring := bufPush (bufPop c.ring).2 (r.bind (·.value)) },
            r.map (·.take), some (.received i (bufPop c.ring).1))
        | [] => ({ c.setQueue [] .tx with ring := (bufPop c.ring).2 }, none,
            some (.received i (bufPop c.ring).1))
      else
        match q with
        | _ :: rest =>
          (c.setQueue rest .tx, r.map (·.take), some (.received i (r.bind (·.value))))
        | [] => (c.setQueue [] .tx, none, if c.closed then some (.recvClosed i) else none) := by
  cases q <;> rfl

/-- A waiter that was found dead cannot be claimed. -/
theorem Examined.not_claimable (h : Examined c v q) {x : Waiter} (hx : x ∈ v.dead) :
    ¬Claimable v.fired x := by
  obtain ⟨hsel, hsome⟩ := h.dead x hx
  rintro (hplain | hnone)
  · rw [hsel] at hplain
    cases hplain
  · rw [hnone] at hsome
    cases hsome

/-- A visit without an outcome: the case could not proceed, and the channel has lost
dead waiters and nothing else. -/
theorem Examined.miss (h : Examined c v q) (hout : v.out = none) :
    ¬Fireable v.fired v.before c.dir ∧ v.before.queue c.dir.peer = v.dead ∧
      v.after = v.before.setQueue [] c.dir.peer ∧ v.wrote = none := by
  have hs := h.served
  rw [hout] at hs
  have hempty : q = [] → ∀ x ∈ v.before.queue c.dir.peer, ¬Claimable v.fired x := by
    rintro rfl x hx
    rw [h.queue, List.append_nil] at hx
    exact h.not_claimable hx
  cases hdir : c.dir with
  | send a =>
    rw [hdir, Dir.peer, serve_send] at hs
    rw [hdir] at hempty
    split at hs
    case isTrue => cases (Prod.ext_iff.mp (Prod.ext_iff.mp hs).2).2
    case isFalse hopen =>
      split at hs
      case h_1 => cases (Prod.ext_iff.mp (Prod.ext_iff.mp hs).2).2
      case h_2 =>
        split at hs
        case isTrue => cases (Prod.ext_iff.mp (Prod.ext_iff.mp hs).2).2
        case isFalse hroom =>
          refine ⟨?_, ?_, (Prod.ext_iff.mp hs).1.symm, (Prod.ext_iff.mp (Prod.ext_iff.mp hs).2).1.symm⟩
          · rintro (hc | ⟨x, hx, hclaim⟩ | hr)
            · exact hopen hc
            · exact hempty rfl x hx hclaim
            · exact hroom hr
          · have hqueue := h.queue
            rw [hdir, List.append_nil] at hqueue
            exact hqueue
  | recv =>
    rw [hdir, Dir.peer, serve_recv] at hs
    rw [hdir] at hempty
    split at hs
    case isTrue =>
      split at hs
      all_goals cases (Prod.ext_iff.mp (Prod.ext_iff.mp hs).2).2
    case isFalse hlen =>
      split at hs
      case h_1 => cases (Prod.ext_iff.mp (Prod.ext_iff.mp hs).2).2
      case h_2 =>
        have hopen : ¬v.before.closed = true := fun hc => by
          rw [if_pos hc] at hs
          cases (Prod.ext_iff.mp (Prod.ext_iff.mp hs).2).2
        refine ⟨?_, ?_, (Prod.ext_iff.mp hs).1.symm, (Prod.ext_iff.mp (Prod.ext_iff.mp hs).2).1.symm⟩
        · rintro (hc | ⟨x, hx, hclaim⟩ | hr)
          · exact hopen hc
          · exact hempty rfl x hx hclaim
          · exact hlen hr
        · have hqueue := h.queue
          rw [hdir, List.append_nil] at hqueue
          exact hqueue

/-- A visit with an outcome: the case could proceed when the waiter was claimed, or
when the lock was given back. -/
theorem Examined.hit (h : Examined c v q) {o : Outcome V} (hout : v.out = some o) :
    Fireable ((v.claim.map Prod.snd).getD v.fired) v.before c.dir := by
  have hs := h.served
  rw [hout] at hs
  cases hclaim : v.claim with
  | some xf =>
    obtain ⟨x, fired⟩ := xf
    obtain ⟨hhead, hx⟩ := h.claim x fired hclaim
    refine .inr (.inl ⟨x, ?_, hx⟩)
    rw [h.queue]
    exact List.mem_append_right _ (List.mem_of_mem_head? hhead)
  | none =>
    rcases h.unclaimed hclaim with rfl | ⟨hc, -⟩
    · cases hdir : c.dir with
      | send a =>
        rw [hdir, Dir.peer, serve_send] at hs
        split at hs
        case isTrue hc => exact .inl hc
        case isFalse =>
          dsimp only at hs
          split at hs
          case isTrue hroom => exact .inr (.inr hroom)
          case isFalse => cases (Prod.ext_iff.mp (Prod.ext_iff.mp hs).2).2
      | recv =>
        rw [hdir, Dir.peer, serve_recv] at hs
        split at hs
        case isTrue hlen => exact .inr (.inr hlen)
        case isFalse =>
          refine .inl ?_
          by_contra hc
          dsimp only at hs
          rw [if_neg hc] at hs
          cases (Prod.ext_iff.mp (Prod.ext_iff.mp hs).2).2
    · exact .inl hc

end Examined

/-! ### What the moves of others leave alone -/

section Frame

variable {s t : State V} {f g ch : ℕ}

theorem Move.fibers_other (hm : Move s g t) (hf : f ≠ g) : t.fibers f = s.fibers f := by
  cases hm with
  | evictRetry | finishRetry =>
    obtain hr | hr := retry_cases s g
    all_goals
      rw [hr]
      exact if_neg hf
  | _ => first | rfl | exact if_neg hf

theorem Move.results_other (hm : Move s g t) (hf : f ≠ g) (n : ℕ) :
    t.results f n = s.results f n := by
  cases hm with
  | evictRetry | finishRetry =>
    obtain hr | hr := retry_cases s g
    all_goals
      rw [hr]
      first | rfl | exact if_neg fun he => hf he.1
  | _ => first | rfl | exact if_neg fun he => hf he.1

/-- A fiber's results of earlier calls stay, and its calls are counted up. -/
theorem Move.results_own (hm : Move s g t) {n : ℕ} (hn : n < (s.fibers g).call) :
    t.results g n = s.results g n ∧ (s.fibers g).call ≤ (t.fibers g).call := by
  have hret : ∀ {u : State V} {out : Outcome V}, u.fibers = s.fibers → u.results = s.results →
      (u.ret g out).results g n = s.results g n ∧
        (s.fibers g).call ≤ ((u.ret g out).fibers g).call := by
    intro u out hfib hres
    refine ⟨?_, ?_⟩
    · rw [← hres]
      refine if_neg fun he => ?_
      rw [hfib] at he
      omega
    · show _ ≤ (if g = g then ({ u.fibers g with call := (u.fibers g).call + 1, pc := .idle } : Fiber V)
        else u.fibers g).call
      rw [if_pos rfl, hfib]
      exact Nat.le_succ _
  have hgoto : ∀ {x : Fiber V}, x.call = (s.fibers g).call →
      (s.fibers g).call ≤ (if g = g then x else s.fibers g).call := fun hx => by
    rw [if_pos rfl, hx]
  cases hm with
  | evictRetry | finishRetry =>
    obtain hr | hr := retry_cases s g
    · rw [hr]
      exact hret rfl rfl
    · rw [hr]
      exact ⟨rfl, hgoto rfl⟩
  | _ => first | exact hret rfl rfl | exact ⟨rfl, Nat.le_refl _⟩ | exact ⟨rfl, hgoto rfl⟩

/-- A channel is changed by the holder of its lock, or while nobody holds it. -/
theorem Move.chans_locked (hm : Move s g t) {sec : Sect V} (hsec : (s.chans ch).lock = some sec)
    (hf : sec.fiber ≠ g) : t.chans ch = s.chans ch := by
  have hkey : ∀ {i : ℕ} {c : Chan V}, ((s.chans i).lock = none ∨
      ∃ e, (s.chans i).lock = some e ∧ e.fiber = g) →
      (if ch = i then c else s.chans ch) = s.chans ch := by
    rintro i c hi
    refine if_neg ?_
    rintro rfl
    rcases hi with hn | ⟨e, he, heg⟩
    · rw [hn] at hsec
      cases hsec
    · rw [he] at hsec
      cases hsec
      exact hf heg
  cases hm with
  | enterHand _ hlock | enterGot _ hlock | enterTake _ hlock | enterClose _ _ hlock
  | installPush _ _ hlock => exact hkey (.inl hlock)
  | evictErase _ _ _ hlock => exact hkey (.inl hlock)
  | tombstone hs hg | claimPlain hs hg | claimSelect hs hg | bufferSend hs hg | recvClosed hs hg
  | gotDone hs hg | closeNext hs hg | closeDone hs hg | refuse hs hg | parkPlain hs hg
  | nextCase hs hg | fillHand hs hg | fillTake hs hg | fillGot hs hg | fillCloseTx hs hg
  | fillCloseRx hs hg | wakeHand hs hg | wakeGot hs hg | wakeClose hs hg =>
    exact hkey (.inr ⟨_, hs, hg⟩)
  | evictRetry | finishRetry =>
    obtain hr | hr := retry_cases s g
    all_goals
      rw [hr]
      rfl
  | _ => rfl

/-- A park that has been entered has been, after any move. -/
theorem Move.past (hm : Move s g t) (hk : Locks s) {p : Park}
    (hp : (s.fibers p.fiber).past p) : (t.fibers p.fiber).past p := by
  by_cases hpg : p.fiber = g
  · rw [hpg] at hp ⊢
    have hout : (s.fibers g).pc.inPark = false → ∀ pc : Pc, pc ≠ .idle →
        { s.fibers g with pc := pc : Fiber V }.past p :=
      fun hin pc hne => Fiber.past_goto hp hne (by rw [hin]; rintro ⟨⟩)
    have hin : ∀ pc : Pc, pc ≠ .idle → pc.inPark = true →
        { s.fibers g with pc := pc : Fiber V }.past p :=
      fun pc hne hin => Fiber.past_goto hp hne fun _ => hin
    have hself : ∀ {x : Fiber V}, x.past p → (if g = g then x else s.fibers g).past p :=
      fun hx => by rwa [if_pos rfl]
    cases hm with
    | call hpc => exact hself (Fiber.past_call hp hpc)
    | toScan hpc | draw hpc | enterClose hpc => exact hself (hout (by rw [hpc]; rfl) _ (by rintro ⟨⟩))
    | enterHand hat | enterGot hat | enterTake hat =>
      refine hself (hout ?_ _ (by rintro ⟨⟩))
      rcases hat with ⟨hpc, -⟩ | ⟨hpc, -, -⟩
      all_goals
        rw [hpc]
        rfl
    | nextCase hs hg =>
      have hpc := hg ▸ hk.holder _ _ hs
      exact hself (hout (by rw [hpc]; rfl) _ (by rintro ⟨⟩))
    | sendClosed | retStart | retScan | finishSend | finishRecv | bufferSend | recvClosed | gotDone
    | closeDone | refuse | wakeHand | wakeGot | resumeSend | resumeRecv =>
      exact hself (Fiber.past_ret hp)
    | newPark | parkPlain | installDone | installReady | abortLost | loadFired | loadNone
    | evictSkip | evictFired | evictDone | installPush | abortWin | evictErase =>
      exact hself (hin _ (by rintro ⟨⟩) rfl)
    | tombstone | claimPlain | claimSelect | closeNext | wakeClose | fillHand | fillTake | fillGot
    | fillCloseTx | fillCloseRx => exact hp
    | evictRetry | finishRetry =>
      obtain hr | hr := retry_cases s g
      · rw [hr]
        exact hself (Fiber.past_ret hp)
      · rw [hr]
        exact hself (Fiber.past_retry hp)
  · rw [hm.fibers_other hpg]
    exact hp

/-- A claim on such a park is not taken back. -/
theorem Move.fired (hm : Move s g t) {p : Park} (hp : (s.fibers p.fiber).past p)
    (hfired : (s.fired p).isSome) : (t.fired p).isSome := by
  cases hm with
  | newPark hpc =>
    have hne : p ≠ s.park g := by
      intro he
      have hpg : p.fiber = g := congrArg Park.fiber he
      rw [hpg] at hp
      exact Fiber.past_ne hp (by rw [hpc]; rfl) he
    show (if p = s.park g then none else s.fired p).isSome
    rw [if_neg hne]
    exact hfired
  | @claimSelect _ _ w =>
    show (if p = w.park then some w.case else s.fired p).isSome
    split
    · rfl
    · exact hfired
  | @abortWin i =>
    show (if p = s.park g then some i else s.fired p).isSome
    split
    · rfl
    · exact hfired
  | evictRetry | finishRetry =>
    obtain hr | hr := retry_cases s g
    all_goals
      rw [hr]
      exact hfired
  | _ => exact hfired

end Frame

/-! ### A visit under way -/

/-- What the section has found when it took the lock. -/
def Opens (c : Case V) (before : Chan V) : Job V → Prop
  | .hand a => c.dir = .send a ∧ before.closed = false
  | .take => c.dir = .recv ∧ before.ring.len = 0
  | .got p => c.dir = .recv ∧ 0 < before.ring.len ∧ p = (bufPop before.ring).1
  | .closeTx | .closeRx => False

/-- The channel after the head of the section. -/
def Job.opened (before : Chan V) : Job V → Chan V
  | .got _ => { before with ring := (bufPop before.ring).2 }
  | _ => before

/-- How far the visit `v` of the case `c` has come; `now` is the channel. -/
inductive Under (c : Case V) (v : Visit V) (now : Chan V) : Job V → Stage → Prop
  | popping {job : Job V} {q : List Waiter} (hopen : Opens c v.before job)
      (hq : v.before.queue c.dir.peer = v.dead ++ q)
      (hnow : now = (job.opened v.before).setQueue q c.dir.peer)
      (hnone : v.claim = none ∧ v.read = none ∧ v.wrote = none) : Under c v now job .popping
  | claimed {job : Job V} {x : Waiter} {q : List Waiter} {fired : Park → Option ℕ}
      (hopen : Opens c v.before job) (hq : v.before.queue c.dir.peer = v.dead ++ x :: q)
      (hnow : now = (job.opened v.before).setQueue q c.dir.peer)
      (hclaim : v.claim = some (x, fired)) (hx : Claimable fired x) : Under c v now job (.claimed x)
  | handed {a : V} {x : Waiter} {q : List Waiter} {fired : Park → Option ℕ} {r : Record V}
      (hopen : Opens c v.before (.hand a)) (hq : v.before.queue c.dir.peer = v.dead ++ x :: q)
      (hnow : now = v.before.setQueue q .rx) (hclaim : v.claim = some (x, fired))
      (hx : Claimable fired x) (hread : v.read = some r) (hwrote : v.wrote = some (r.hand a)) :
    Under c v now (.hand a) (.waking x)
  | took {x : Waiter} {q : List Waiter} {fired : Park → Option ℕ} {r : Record V}
      (hopen : Opens c v.before .take) (hq : v.before.queue c.dir.peer = v.dead ++ x :: q)
      (hnow : now = v.before.setQueue q .tx) (hclaim : v.claim = some (x, fired))
      (hx : Claimable fired x) (hread : v.read = some r) (hwrote : v.wrote = some r.take) :
    Under c v now (.got r.value) (.waking x)
  | moved {p : Option V} {x : Waiter} {q : List Waiter} {fired : Park → Option ℕ} {r : Record V}
      (hopen : Opens c v.before (.got p)) (hq : v.before.queue c.dir.peer = v.dead ++ x :: q)
      (hnow : now = { v.before.setQueue q .tx with
        ring := bufPush (bufPop v.before.ring).2 r.value })
      (hclaim : v.claim = some (x, fired)) (hx : Claimable fired x) (hread : v.read = some r)
      (hwrote : v.wrote = some r.take) : Under c v now (.got p) (.waking x)

/-- The order that was drawn for the scan. -/
structure Drawn (w : Watch V) : Prop where
  start_lt : w.start < w.cases.length
  stride_le : w.stride ≤ w.cases.length
  coprime : Nat.gcd w.stride w.cases.length = 1
  fits : Fits w.cases.length w.start w.stride

theorem Drawn.pos {w : Watch V} (h : Drawn w) : 0 < w.cases.length :=
  Nat.lt_of_le_of_lt (Nat.zero_le _) h.start_lt

/-- Between the draw and the end of the scan, at the `k`-th visit. -/
structure Scanning (f : ℕ) (w : Watch V) (stride k i : ℕ) : Prop where
  op : ∃ d, (w.s.fibers f).op = .select w.cases d
  call : (w.s.fibers f).call = w.call
  stride : stride = w.stride
  count : w.visits.length = k
  index : i = strided w.cases.length w.start w.stride k
  result : w.result = none
  drawn : Drawn w

/-- The waiter was discarded as dead and stays dead. -/
def Discarded (s : State V) (x : Waiter) : Prop :=
  x.select = true ∧ (s.fired x.park).isSome ∧ (s.fibers x.park.fiber).past x.park

structure Visiting (f : ℕ) (w : Watch V) (ch : ℕ) (v : Visit V) (sec : Sect V) (stride k : ℕ)
    (c : Case V) : Prop where
  lock : (w.s.chans ch).lock = some sec
  fiber : sec.fiber = f
  caller : sec.caller = .scan stride k v.case
  scanning : Scanning f w stride k v.case
  lt : k < w.cases.length
  case : w.cases[v.case]? = some c
  home : c.ch = ch
  free : v.before.lock = none
  under : Under c v { w.s.chans ch with lock := none } sec.job sec.stage
  dead : ∀ x ∈ v.dead, Discarded w.s x

/-- Where the watched fiber stands. A section outside a scan is one of a plain call or
of a close. -/
def At (f : ℕ) (w : Watch V) : Prop :=
  match (w.s.fibers f).pc with
  | .tryCase stride k i =>
    Scanning f w stride k i ∧ k ≤ w.cases.length ∧ w.cur = none
  | .locked ch =>
    match w.cur with
    | some v => ∃ sec stride k c, Visiting f w ch v sec stride k c
    | none => ∃ sec, (w.s.chans ch).lock = some sec ∧ sec.fiber = f ∧ sec.caller = .plain
  | _ => w.cur = none

/-- The visits that are over. -/
structure Told (f : ℕ) (w : Watch V) : Prop where
  drawn : w.visits ≠ [] ∨ w.result ≠ none → Drawn w
  le : w.visits.length ≤ w.cases.length
  order : w.visits.map (·.case) =
    (List.range w.visits.length).map (strided w.cases.length w.start w.stride)
  examined : ∀ v ∈ w.visits, ∃ c q, w.cases[v.case]? = some c ∧ Examined c v q
  running : w.result = none → ∀ v ∈ w.visits, v.out = none
  gaveUp : w.result = some none → w.visits.length = w.cases.length ∧ ∀ v ∈ w.visits, v.out = none
  hit : ∀ o, w.result = some (some o) → ∃ l v, w.visits = l ++ [v] ∧ (∀ u ∈ l, u.out = none) ∧
    v.out = some o ∧ w.call < (w.s.fibers f).call ∧
    ∃ op, op.cases = w.cases ∧ w.s.results f w.call = some (op, o)

section Told

variable {f : ℕ} {w : Watch V} {t : State V}

theorem Told.next (h : Told f w)
    (hcall : w.call < (w.s.fibers f).call → w.call < (t.fibers f).call ∧
      t.results f w.call = w.s.results f w.call) : Told f { w with s := t } := by
  refine ⟨fun hd => ⟨(h.drawn hd).1, (h.drawn hd).2, (h.drawn hd).3, (h.drawn hd).4⟩, h.le, h.order, h.examined,
    h.running, h.gaveUp, fun o ho => ?_⟩
  obtain ⟨l, v, hv, hl, hout, hlt, op, hop, hres⟩ := h.hit o ho
  obtain ⟨hlt', hsame⟩ := hcall hlt
  exact ⟨l, v, hv, hl, hout, hlt', op, hop, hsame.trans hres⟩

/-- A step inside the call of the scan. -/
theorem Told.within (h : Told f w) (hcall : (w.s.fibers f).call = w.call)
    (cur : Option (Visit V)) : Told f { w with s := t, cur := cur } := by
  refine ⟨fun hd => ⟨(h.drawn hd).1, (h.drawn hd).2, (h.drawn hd).3, (h.drawn hd).4⟩, h.le, h.order, h.examined,
    h.running, h.gaveUp, fun o ho => ?_⟩
  obtain ⟨-, -, -, -, -, hlt, -⟩ := h.hit o ho
  exact absurd hcall (Nat.ne_of_gt hlt)

/-- A visit is over and is written down. -/
theorem Told.leave (h : Told f w) {v : Visit V} {ch : ℕ} {c : Case V} {q : List Waiter}
    (hover : w.result = none) (hdrawn : Drawn w) (hlt : w.visits.length < w.cases.length)
    (hcase : v.case = strided w.cases.length w.start w.stride w.visits.length)
    (hc : w.cases[v.case]? = some c) {out : Option (Outcome V)}
    (hout : out = if (t.fibers f).pc = .idle then (t.results f w.call).map Prod.snd else none)
    (hex : Examined c { v with fired := w.s.fired, after := t.chans ch, out := out } q)
    (hret : ∀ o, out = some o → w.call < (t.fibers f).call ∧
      ∃ op, op.cases = w.cases ∧ t.results f w.call = some (op, o)) :
    Told f { w.leave f v ch t with s := t } := by
  unfold Watch.leave
  rw [← hout]
  refine ⟨fun _ => ⟨hdrawn.1, hdrawn.2, hdrawn.3, hdrawn.4⟩, ?_, ?_, fun u hu => ?_, fun ho u hu => ?_,
    fun ho => ?_, fun o ho => ?_⟩
  all_goals dsimp only at *
  · rw [List.length_append]
    exact hlt
  · rw [List.map_append, h.order, List.length_append, List.length_singleton, List.range_succ,
      List.map_append, List.map_singleton, List.map_singleton]
    exact congrArg _ (congrArg (fun x => [x]) hcase)
  · rcases List.mem_append.mp hu with hu | hu
    · exact h.examined u hu
    · rw [List.mem_singleton.mp hu]
      exact ⟨c, q, hc, hex⟩
  · rcases List.mem_append.mp hu with hu | hu
    · exact h.running hover u hu
    · rw [List.mem_singleton.mp hu]
      exact Option.map_eq_none_iff.mp ho
  · obtain ⟨o, -, hn⟩ := Option.map_eq_some_iff.mp ho
    cases hn
  · obtain ⟨o', ho', hs⟩ := Option.map_eq_some_iff.mp ho
    cases hs
    obtain ⟨hlt, op, hop, hres⟩ := hret o ho'
    exact ⟨_, _, rfl, h.running hover, ho', hlt, op, hop, hres⟩

end Told

/-! ### The steps of the watched fiber -/

section Own

variable {goroutine : ℕ → Bool} {f : ℕ} {w : Watch V} {t : State V}

theorem setQueue_self (c : Chan V) (d : Side) : c.setQueue (c.queue d) d = c := by
  cases d <;> rfl

theorem setQueue_setQueue (c : Chan V) (q q' : List Waiter) (d : Side) :
    (c.setQueue q d).setQueue q' d = c.setQueue q' d := by
  cases d <;> rfl

variable {c : Case V} {job : Job V} {v : Visit V} {ch stride k : ℕ} {q : List Waiter}
  {u s : State V} {x : Waiter} {sec : Sect V}

theorem Opens.side {before : Chan V} (h : Opens c before job) :
    job.side = c.dir.peer := by
  cases job with
  | hand a => rw [h.1]; rfl
  | take => rw [h.1]; rfl
  | got p => rw [h.1]; rfl
  | closeTx => exact h.elim
  | closeRx => exact h.elim

/-- The return from a section. -/
theorem ret_own (u : State V) (f : ℕ) (out : Outcome V) :
    ((u.ret f out).fibers f).pc = .idle ∧ ((u.ret f out).fibers f).call = (u.fibers f).call + 1 ∧
      (u.ret f out).results f (u.fibers f).call = some ((u.fibers f).op, out) := by
  refine ⟨?_, ?_, ?_⟩
  · show (if f = f then _ else _ : Fiber V).pc = .idle
    rw [if_pos rfl]
  · show (if f = f then _ else _ : Fiber V).call = _
    rw [if_pos rfl]
  · exact if_pos ⟨rfl, rfl⟩

/-- The visit ends with a return. -/
theorem Told.return (h : Told f w)
    {o : Outcome V} (hsc : Scanning f w stride k v.case) (hlt : k < w.cases.length)
    (hc : w.cases[v.case]? = some c) (hfib : u.fibers f = w.s.fibers f)
    (hex : Examined c { v with fired := w.s.fired, after := u.chans ch, out := some o } q) :
    Told f { w.leave f v ch (u.ret f o) with s := u.ret f o } ∧
      At f { w.leave f v ch (u.ret f o) with s := u.ret f o } := by
  obtain ⟨hidle, hcall, hres⟩ := ret_own u f o
  rw [hfib, hsc.call] at hcall hres
  obtain ⟨d, hop⟩ := hsc.op
  refine ⟨h.leave hsc.result hsc.drawn (by rw [hsc.count]; exact hlt) (by rw [hsc.count]; exact hsc.index) hc ?_ hex ?_, ?_⟩
  · rw [if_pos hidle, hres]
    rfl
  · intro o' ho'
    cases ho'
    refine ⟨by omega, _, ?_, hres⟩
    rw [hop]
    rfl
  · unfold At
    dsimp only
    rw [hidle]
    rfl

/-- The visit ends without an outcome. -/
theorem Told.missed (h : Told f w) {i' : ℕ}
    (hsc : Scanning f w stride k v.case) (hlt : k < w.cases.length)
    (hc : w.cases[v.case]? = some c) (hfib : u.fibers f = w.s.fibers f)
    (hi' : i' = if w.cases.length ≤ v.case + stride then v.case + stride - w.cases.length
      else v.case + stride)
    (hex : Examined c { v with fired := w.s.fired, after := u.chans ch, out := none } q) :
    Told f { w.leave f v ch (u.goto f (.tryCase stride (k + 1) i')) with
        s := u.goto f (.tryCase stride (k + 1) i') } ∧
      At f { w.leave f v ch (u.goto f (.tryCase stride (k + 1) i')) with
        s := u.goto f (.tryCase stride (k + 1) i') } := by
  have hself : (u.goto f (.tryCase stride (k + 1) i')).fibers f =
      { w.s.fibers f with pc := .tryCase stride (k + 1) i' } := by
    rw [← hfib]
    exact if_pos rfl
  have hnot : ¬((u.goto f (.tryCase stride (k + 1) i')).fibers f).pc = .idle := by
    rw [hself]
    rintro ⟨⟩
  refine ⟨h.leave hsc.result hsc.drawn (by rw [hsc.count]; exact hlt) (by rw [hsc.count]; exact hsc.index) hc (by rw [if_neg hnot]) hex (by rintro _ ⟨⟩), ?_⟩
  unfold At
  dsimp only
  rw [hself]
  dsimp only [Watch.leave]
  rw [if_neg hnot]
  refine ⟨⟨?_, ?_, hsc.stride, ?_, ?_, rfl, ⟨hsc.drawn.1, hsc.drawn.2, hsc.drawn.3, hsc.drawn.4⟩⟩, hlt, rfl⟩
  all_goals dsimp only
  · rw [hself]
    exact hsc.op
  · rw [hself]
    exact hsc.call
  · rw [List.length_append, hsc.count]
    rfl
  · rw [strided_succ hsc.drawn.pos hsc.drawn.stride_le, ← hsc.index, hi', hsc.stride]

/-- The lock is taken. -/
theorem At.enter {i : ℕ}
    (hsc : Scanning f w stride k i) (hlt : k < w.cases.length) (hc : w.cases[i]? = some c)
    (hlock : (w.s.chans c.ch).lock = none) (hopen : Opens c (w.s.chans c.ch) job)
    (hfib : u.fibers = w.s.fibers) :
    At f { w with
      s := u.lockAs c.ch (job.opened (w.s.chans c.ch)) ⟨f, .scan stride k i, job, .popping⟩
      cur := some (Visit.begin i (w.s.chans c.ch) w.s.fired) } := by
  generalize ht : u.lockAs c.ch (job.opened (w.s.chans c.ch)) _ = t
  have hself : t.fibers f = { w.s.fibers f with pc := .locked c.ch } := by
    rw [← ht, ← hfib]
    exact if_pos rfl
  have hchan : t.chans c.ch = { job.opened (w.s.chans c.ch) with
      lock := some ⟨f, .scan stride k i, job, .popping⟩ } := by
    rw [← ht]
    exact if_pos rfl
  unfold At
  dsimp only
  rw [hself]
  refine ⟨⟨f, .scan stride k i, job, .popping⟩, stride, k, c, ⟨?_, rfl, rfl, ?_, hlt, hc, rfl, hlock,
    ?_, by rintro _ ⟨⟩⟩⟩
  · dsimp only
    rw [hchan]
  · refine ⟨?_, ?_, hsc.stride, hsc.count, hsc.index, hsc.result, ⟨hsc.drawn.1, hsc.drawn.2, hsc.drawn.3, hsc.drawn.4⟩⟩
    · dsimp only
      rw [hself]
      exact hsc.op
    · dsimp only
      rw [hself]
      exact hsc.call
  · refine .popping (q := (w.s.chans c.ch).queue c.dir.peer) hopen rfl ?_ ⟨rfl, rfl, rfl⟩
    dsimp only [Visit.begin]
    have hqueue : (job.opened (w.s.chans c.ch)).queue c.dir.peer = (w.s.chans c.ch).queue c.dir.peer := by
      cases job <;> rfl
    have hfree : (job.opened (w.s.chans c.ch)).lock = none := by
      cases job <;> exact hlock
    rw [← hqueue, setQueue_self, hchan, ← hfree]

theorem tryCase_told {i : ℕ} (h : Told f w) (hat : At f w)
    (hpc : (w.s.fibers f).pc = .tryCase stride k i)
    (hs : tryCase goroutine w.s f stride k i = some t) :
    Told f { w.note f t with s := t } ∧ At f { w.note f t with s := t } := by
  unfold At at hat
  rw [hpc] at hat
  obtain ⟨hsc, hle, hcur⟩ := hat
  obtain ⟨d, hop⟩ := hsc.op
  unfold Watch.note
  rw [hpc]
  dsimp only
  simp only [tryCase, hop] at hs
  split at hs
  case isTrue hlt =>
    have hi : i < w.cases.length := by
      rw [hsc.index]
      exact strided_lt hsc.drawn.pos k
    rw [if_pos hlt]
    obtain ⟨c, hc⟩ : ∃ c, w.cases[i]? = some c := ⟨_, List.getElem?_eq_getElem hi⟩
    rw [hc] at hs ⊢
    dsimp only at hs ⊢
    unfold enter at hs
    dsimp only at hs
    split at hs
    case isTrue => cases hs
    case isFalse hlock =>
      rw [Option.not_isSome_iff_eq_none] at hlock
      split at hs
      case h_1 a hdir =>
        split at hs
        case isTrue hclosed =>
          cases hs
          rw [if_pos (ret_own ..).1]
          refine h.return (v := Visit.begin i _ _) hsc hlt hc rfl (q := (w.s.chans c.ch).queue c.dir.peer)
            ⟨rfl, by rintro _ ⟨⟩, by rintro _ _ ⟨⟩, fun _ => .inr ⟨hclosed, by rw [hdir]; rfl⟩, ?_⟩
          dsimp only [Visit.begin, Caller.index]
          rw [setQueue_self, hdir, serve, if_pos hclosed]
        case isFalse hopen =>
          cases hs
          rw [if_neg (by rw [State.lockAs, goto_pc]; rintro ⟨⟩)]
          exact ⟨h.within hsc.call _, At.enter hsc hlt hc hlock
            ⟨hdir, Bool.not_eq_true _ ▸ hopen⟩ rfl⟩
      case h_2 hdir =>
        split at hs
        case isTrue hlen =>
          cases hs
          rw [if_neg (by rw [State.lockAs, goto_pc]; rintro ⟨⟩)]
          have hopen : Opens c (w.s.chans c.ch) (.got (bufPop (w.s.chans c.ch).ring).1) :=
            ⟨hdir, hlen, rfl⟩
          exact ⟨h.within hsc.call _, At.enter hsc hlt hc hlock hopen rfl⟩
        case isFalse hlen =>
          cases hs
          rw [if_neg (by rw [State.lockAs, goto_pc]; rintro ⟨⟩)]
          exact ⟨h.within hsc.call _, At.enter hsc hlt hc hlock
            ⟨hdir, Nat.eq_zero_of_not_pos hlen⟩ rfl⟩
  case isFalse hge =>
    rw [if_neg hge]
    have htold : Told f { w with result := some none, s := t } := by
      refine ⟨fun _ => ⟨hsc.drawn.1, hsc.drawn.2, hsc.drawn.3, hsc.drawn.4⟩, h.le, h.order, h.examined, by rintro ⟨⟩,
        fun _ => ⟨?_, h.running hsc.result⟩, by rintro _ ⟨⟩⟩
      have := hsc.count
      dsimp only
      omega
    refine ⟨htold, ?_⟩
    have hpc' : (t.fibers f).pc = .idle ∨ (t.fibers f).pc = .install 0 := by
      split at hs
      case isTrue =>
        cases hs
        exact .inl (ret_own ..).1
      case isFalse =>
        split at hs
        case isTrue =>
          cases hs
          exact .inl (ret_own ..).1
        case isFalse =>
          cases hs
          exact .inr (goto_pc ..)
    unfold At
    dsimp only
    rcases hpc' with hpc' | hpc'
    all_goals
      rw [hpc']
      exact hcur

theorem Discarded.move {g : ℕ} (h : Discarded s x) (hk : Locks s)
    (hm : Move s g t) : Discarded t x :=
  ⟨h.1, hm.fired h.2.2 h.2.1, hm.past hk h.2.2⟩

/-- The owner of a linked record is in the park of it. -/
theorem Linked.past {d : Side} (h : Linked s)
    (hx : x ∈ (s.chans ch).queue d) : (s.fibers x.park.fiber).past x.park := by
  have hpark := h.park_eq hx
  obtain ⟨hidle, hin⟩ := Pc.links_inPark (h.links ch d x hx)
  refine .inr ⟨?_, hidle, .inr ⟨?_, hin⟩⟩
  · rw [congrArg Park.call hpark]
    rfl
  · rw [congrArg Park.attempt hpark]
    rfl

/-- The section goes on. -/
theorem Visiting.stay {v' : Visit V} {sec' : Sect V}
    {c' : Chan V} (hv : Visiting f w ch v sec stride k c) (hpc : (w.s.fibers f).pc = .locked ch)
    (hfib : u.fibers = w.s.fibers) (hsec : sec'.fiber = sec.fiber ∧ sec'.caller = sec.caller)
    (hsame : v'.case = v.case ∧ v'.before = v.before)
    (hunder : Under c v' { c' with lock := none } sec'.job sec'.stage)
    (hdead : ∀ x ∈ v'.dead, Discarded (u.stay ch c' sec') x) :
    At f { w with s := u.stay ch c' sec', cur := some v' } := by
  have hchan : (u.stay ch c' sec').chans ch = { c' with lock := some sec' } := if_pos rfl
  have hf : (u.stay ch c' sec').fibers = w.s.fibers := hfib
  unfold At
  dsimp only
  rw [hf, hpc]
  have hsc := hv.scanning
  refine ⟨sec', stride, k, c, ⟨by dsimp only; rw [hchan], hsec.1.trans hv.fiber, ?_, ?_, hv.lt, ?_,
    hv.home, by rw [hsame.2]; exact hv.free, ?_, hdead⟩⟩
  · rw [hsec.2, hv.caller, hsame.1]
  · rw [hsame.1]
    exact ⟨by dsimp only; rw [hf]; exact hsc.op, by dsimp only; rw [hf]; exact hsc.call, hsc.stride,
      hsc.count, hsc.index, hsc.result, ⟨hsc.drawn.1, hsc.drawn.2, hsc.drawn.3, hsc.drawn.4⟩⟩
  · rw [hsame.1]
    exact hv.case
  · dsimp only
    rw [hchan]
    exact hunder

/-- The queue that the section pops is what the visit has left of it. -/
theorem queue_of_now {now before : Chan V} {d : Side}
    (hnow : { now with lock := none } = (job.opened before).setQueue q d) : now.queue d = q := by
  have hq := congrArg (fun c => Chan.queue c d) hnow
  rw [setQueue_queue] at hq
  exact hq

/-- One more waiter is unlinked. -/
theorem setQueue_of_now {now before : Chan V} {q' : List Waiter} {d : Side}
    (hnow : { now with lock := none } = (job.opened before).setQueue q d) :
    { now.setQueue q' d with lock := none } = (job.opened before).setQueue q' d := by
  have hset := congrArg (fun c => Chan.setQueue c q' d) hnow
  rw [setQueue_setQueue] at hset
  exact hset

/-- **Step lemma** for a round of `waiter_pop_claimable` that finds a waiter. -/
theorem pop_told
    (h : Told f w) (hinv : Inv w.s) (hm : Move w.s f t)
    (hv : Visiting f w ch v sec stride k c) (hcur : w.cur = some v)
    (hpc : (w.s.fibers f).pc = .locked ch) (hst : sec.stage = .popping)
    (hopen : Opens c v.before sec.job) (hq : v.before.queue c.dir.peer = v.dead ++ x :: q)
    (hnow : { w.s.chans ch with lock := none } =
      (sec.job.opened v.before).setQueue (x :: q) c.dir.peer)
    (hnone : v.claim = none ∧ v.read = none ∧ v.wrote = none)
    (hs : popRound goroutine w.s ch sec = some t) :
    Told f { w.note f t with s := t } ∧ At f { w.note f t with s := t } := by
  have hside := hopen.side
  have hqueue : (w.s.chans ch).queue sec.job.side = x :: q := by
    rw [hside]
    exact queue_of_now hnow
  have hnow' : { (w.s.chans ch).setQueue q sec.job.side with lock := none } =
      (sec.job.opened v.before).setQueue q c.dir.peer := by
    rw [hside]
    exact setQueue_of_now hnow
  have hdead : ∀ y ∈ v.dead, Discarded t y := fun y hy => (hv.dead y hy).move hinv.locks hm
  unfold Watch.note
  rw [hpc]
  simp only [hcur, hv.lock, hst, hqueue]
  simp only [popRound, hqueue] at hs
  split at hs
  case isTrue hplain =>
    cases hs
    rw [Bool.not_eq_true'] at hplain
    rw [if_neg (by rw [hplain]; rintro ⟨⟩)]
    exact ⟨h.within hv.scanning.call _, hv.stay hpc rfl ⟨rfl, rfl⟩ ⟨rfl, rfl⟩
      (.claimed hopen hq hnow' rfl (.inl hplain)) hdead⟩
  case isFalse hsel =>
    rw [Bool.not_eq_true', Bool.not_eq_false] at hsel
    split at hs
    case h_1 hfired =>
      cases hs
      rw [if_neg (by rw [hfired, hsel]; rintro ⟨⟩)]
      exact ⟨h.within hv.scanning.call _, hv.stay hpc rfl ⟨rfl, rfl⟩ ⟨rfl, rfl⟩
        (.claimed hopen hq hnow' rfl (.inr hfired)) hdead⟩
    case h_2 n hfired =>
      cases hs
      rw [if_pos (by rw [hfired, hsel]; rfl)]
      refine ⟨h.within hv.scanning.call _, hv.stay hpc rfl ⟨rfl, rfl⟩ ⟨rfl, rfl⟩ ?_ ?_⟩
      · rw [hst]
        exact .popping hopen (by rw [hq, List.append_assoc]; rfl) hnow' hnone
      · intro y hy
        rcases List.mem_append.mp hy with hy | hy
        · exact hdead y hy
        · rw [List.mem_singleton.mp hy]
          have hmem : x ∈ (w.s.chans ch).queue sec.job.side := by
            rw [hqueue]
            exact List.mem_cons_self
          exact Discarded.move ⟨hsel, by rw [hfired]; rfl, hinv.linked.past hmem⟩ hinv.locks hm

/-- The scan goes to its next case. -/
theorem wouldBlock_told (h : Told f w)
    (hv : Visiting f w ch v sec stride k c)
    (hex : Examined c { v with
      fired := w.s.fired, after := { w.s.chans ch with lock := none }, out := none } [])
    (hs : wouldBlock goroutine w.s ch sec = some t) :
    Told f { w.leave f v ch t with s := t } ∧ At f { w.leave f v ch t with s := t } := by
  obtain ⟨d, hop⟩ := hv.scanning.op
  simp only [wouldBlock, hv.caller, hv.fiber, hop, Op.cases] at hs
  cases hs
  refine h.missed hv.scanning hv.lt hv.case (q := []) rfl rfl ?_
  rw [show (w.s.unlock ch (w.s.chans ch)).chans ch = { w.s.chans ch with lock := none } from
    if_pos rfl]
  exact hex

/-- **Step lemma** for the round that finds no waiter. -/
theorem exhausted_told (h : Told f w)
    (hv : Visiting f w ch v sec stride k c) (hcur : w.cur = some v)
    (hpc : (w.s.fibers f).pc = .locked ch) (hst : sec.stage = .popping)
    (hopen : Opens c v.before sec.job) (hq : v.before.queue c.dir.peer = v.dead)
    (hnow : { w.s.chans ch with lock := none } = (sec.job.opened v.before).setQueue [] c.dir.peer)
    (hnone : v.claim = none ∧ v.read = none ∧ v.wrote = none)
    (hs : popRound goroutine w.s ch sec = some t) :
    Told f { w.note f t with s := t } ∧ At f { w.note f t with s := t } := by
  have hqueue : (w.s.chans ch).queue sec.job.side = [] := by
    rw [hopen.side]
    exact queue_of_now hnow
  have hindex : sec.caller.index = v.case := by
    rw [hv.caller]
    rfl
  -- what remains of `Examined` is the equation with `serve`
  have hdone : ∀ {after : Chan V} {out : Option (Outcome V)},
      serve (v.before.setQueue [] c.dir.peer) v.case none c.dir = (after, none, out) →
      Examined c { v with fired := w.s.fired, after := after, out := out } [] := by
    intro after out hserve
    refine ⟨by rw [hq, List.append_nil], fun x hx => ⟨(hv.dead x hx).1, (hv.dead x hx).2.1⟩,
      fun x fired hx => ?_, fun _ => .inl rfl, ?_⟩
    · dsimp only at hx
      rw [hnone.1] at hx
      cases hx
    · dsimp only
      rw [hnone.2.1, hnone.2.2]
      exact hserve
  unfold Watch.note
  rw [hpc]
  simp only [hcur, hv.lock, hst, hqueue]
  simp only [popRound, hqueue, exhausted, hindex, hv.fiber] at hs
  split at hs
  case h_1 a hjob =>
    rw [hjob] at hopen hnow
    obtain ⟨hdir, hclosed⟩ := hopen
    rw [hdir, Dir.peer] at hnow hdone
    split at hs
    case isTrue hroom =>
      cases hs
      refine h.return hv.scanning hv.lt hv.case rfl (q := []) (hdone ?_)
      have hring := congrArg Chan.ring hnow
      change (w.s.chans ch).ring = v.before.ring at hring
      rw [hring] at hroom
      rw [serve_send, hclosed, if_neg (by rintro ⟨⟩)]
      dsimp only
      rw [if_pos hroom]
      refine Prod.ext ?_ rfl
      rw [show (State.unlock _ ch { w.s.chans ch with
        ring := bufPush (w.s.chans ch).ring (some a) }).chans ch = { w.s.chans ch with
          ring := bufPush (w.s.chans ch).ring (some a), lock := none } from if_pos rfl]
      exact (congrArg (fun b : Chan V => { b with ring := bufPush b.ring (some a) }) hnow).symm
    case isFalse hroom =>
      refine wouldBlock_told h hv (hdone ?_) hs
      have hring := congrArg Chan.ring hnow
      change (w.s.chans ch).ring = v.before.ring at hring
      rw [serve_send, hclosed, if_neg (by rintro ⟨⟩), hnow]
      dsimp only
      rw [← hring, if_neg hroom]
      rfl
  case h_2 hjob =>
    rw [hjob] at hopen hnow
    obtain ⟨hdir, hlen⟩ := hopen
    rw [hdir, Dir.peer] at hnow hdone
    have hclosed := congrArg Chan.closed hnow
    change (w.s.chans ch).closed = v.before.closed at hclosed
    split at hs
    case isTrue hcl =>
      cases hs
      refine h.return hv.scanning hv.lt hv.case rfl (q := []) (hdone ?_)
      rw [serve_recv, hlen, if_neg (Nat.lt_irrefl 0)]
      dsimp only
      rw [← hclosed, if_pos hcl]
      refine Prod.ext ?_ rfl
      rw [show (State.unlock _ ch (w.s.chans ch)).chans ch = { w.s.chans ch with lock := none } from
        if_pos rfl]
      exact hnow.symm
    case isFalse hcl =>
      refine wouldBlock_told h hv (hdone ?_) hs
      rw [serve_recv, hlen, if_neg (Nat.lt_irrefl 0), hnow]
      dsimp only
      rw [← hclosed, if_neg hcl]
      rfl
  case h_3 p hjob =>
    rw [hjob] at hopen hnow
    obtain ⟨hdir, hlen, hp⟩ := hopen
    rw [hdir, Dir.peer] at hnow hdone
    cases hs
    refine h.return hv.scanning hv.lt hv.case rfl (q := []) (hdone ?_)
    rw [serve_recv, if_pos hlen, hp]
    refine Prod.ext ?_ rfl
    rw [show (State.unlock _ ch (w.s.chans ch)).chans ch = { w.s.chans ch with lock := none } from
      if_pos rfl]
    exact hnow.symm
  case h_4 hjob =>
    rw [hjob] at hopen
    exact hopen.elim
  case h_5 hjob =>
    rw [hjob] at hopen
    exact hopen.elim

/-- **Step lemma** for the writes to the claimed record. -/
theorem fill_told
    {fired : Park → Option ℕ} (h : Told f w) (hinv : Inv w.s)
    (hm : Move w.s f t) (hv : Visiting f w ch v sec stride k c) (hcur : w.cur = some v)
    (hpc : (w.s.fibers f).pc = .locked ch) (hst : sec.stage = .claimed x)
    (hopen : Opens c v.before sec.job) (hq : v.before.queue c.dir.peer = v.dead ++ x :: q)
    (hnow : { w.s.chans ch with lock := none } = (sec.job.opened v.before).setQueue q c.dir.peer)
    (hclaim : v.claim = some (x, fired)) (hx : Claimable fired x)
    (hs : fill w.s ch sec x = some t) :
    Told f { w.note f t with s := t } ∧ At f { w.note f t with s := t } := by
  have hdead : ∀ y ∈ v.dead, Discarded t y := fun y hy => (hv.dead y hy).move hinv.locks hm
  unfold Watch.note
  rw [hpc]
  simp only [hcur, hv.lock, hst]
  refine ⟨h.within hv.scanning.call _, ?_⟩
  simp only [fill] at hs
  split at hs
  case h_1 a hjob =>
    rw [hjob] at hopen hnow
    rw [hopen.1, Dir.peer] at hnow
    cases hs
    refine hv.stay hpc rfl ⟨rfl, rfl⟩ ⟨rfl, rfl⟩ ?_ hdead
    dsimp only
    rw [hjob]
    exact .handed (r := w.s.records x) hopen hq hnow hclaim hx rfl (congrArg some (if_pos rfl))
  case h_2 hjob =>
    rw [hjob] at hopen hnow
    rw [hopen.1, Dir.peer] at hnow
    cases hs
    refine hv.stay hpc rfl ⟨rfl, rfl⟩ ⟨rfl, rfl⟩ ?_ hdead
    exact .took (r := w.s.records x) hopen hq hnow hclaim hx rfl (congrArg some (if_pos rfl))
  case h_3 p hjob =>
    rw [hjob] at hopen hnow
    rw [hopen.1, Dir.peer] at hnow
    cases hs
    refine hv.stay hpc rfl ⟨rfl, rfl⟩ ⟨rfl, rfl⟩ ?_ hdead
    dsimp only
    rw [hjob]
    refine .moved (r := w.s.records x) hopen hq ?_ hclaim hx rfl (congrArg some (if_pos rfl))
    exact congrArg (fun b : Chan V => { b with ring := bufPush b.ring (w.s.records x).value }) hnow
  case h_4 hjob =>
    rw [hjob] at hopen
    exact hopen.elim
  case h_5 hjob =>
    rw [hjob] at hopen
    exact hopen.elim

/-- A visit that claimed the waiter `x` is over. -/
theorem Examined.of_claim
    {fired : Park → Option ℕ} {r : Record V} {after : Chan V} {o : Outcome V}
    (hq : v.before.queue c.dir.peer = v.dead ++ x :: q) (hclaim : v.claim = some (x, fired))
    (hx : Claimable fired x) (hread : v.read = some r) (hdead : ∀ y ∈ v.dead, Discarded w.s y)
    (hserve : serve (v.before.setQueue (x :: q) c.dir.peer) v.case (some r) c.dir =
      (after, v.wrote, some o)) :
    Examined c { v with fired := w.s.fired, after := after, out := some o } (x :: q) := by
  refine ⟨hq, fun y hy => ⟨(hdead y hy).1, (hdead y hy).2.1⟩, fun y g hy => ?_, fun hn => ?_, ?_⟩
  · dsimp only at hy
    rw [hclaim] at hy
    cases hy
    exact ⟨rfl, hx⟩
  · dsimp only at hn
    rw [hclaim] at hn
    cases hn
  · dsimp only
    rw [hread]
    exact hserve

/-- **Step lemma** for the return after `wake_waiter`. -/
theorem wake_told
    (h : Told f w) (hv : Visiting f w ch v sec stride k c) (hcur : w.cur = some v)
    (hpc : (w.s.fibers f).pc = .locked ch) (hst : sec.stage = .waking x)
    (hs : wakeWaiter w.s ch sec = some t) :
    Told f { w.note f t with s := t } ∧ At f { w.note f t with s := t } := by
  have hindex : sec.caller.index = v.case := by
    rw [hv.caller]
    rfl
  have hafter : (w.s.unlock ch (w.s.chans ch)).chans ch = { w.s.chans ch with lock := none } :=
    if_pos rfl
  unfold Watch.note
  rw [hpc]
  simp only [hcur, hv.lock, hst]
  simp only [wakeWaiter, hindex, hv.fiber] at hs
  have hu := hv.under
  rw [hst] at hu
  generalize hjob : sec.job = job at hu hs
  cases hu with
  | @handed a _ q fired r hopen hq hnow hclaim hx hread hwrote =>
    cases hs
    refine h.return hv.scanning hv.lt hv.case rfl (Examined.of_claim hq hclaim hx hread hv.dead ?_)
    rw [hopen.1, Dir.peer, serve_send, hopen.2, if_neg (by rintro ⟨⟩), hafter, hnow, hwrote]
    rfl
  | @took _ q fired r hopen hq hnow hclaim hx hread hwrote =>
    cases hs
    refine h.return hv.scanning hv.lt hv.case rfl (Examined.of_claim hq hclaim hx hread hv.dead ?_)
    rw [hopen.1, Dir.peer, serve_recv, hopen.2, if_neg (Nat.lt_irrefl 0), hafter, hnow, hwrote]
    rfl
  | @moved p _ q fired r hopen hq hnow hclaim hx hread hwrote =>
    cases hs
    refine h.return hv.scanning hv.lt hv.case rfl (Examined.of_claim hq hclaim hx hread hv.dead ?_)
    rw [hopen.1, Dir.peer, serve_recv, if_pos hopen.2.1, hafter, hnow, hwrote, hopen.2.2]
    rfl

/-- **Step lemma** for a visit under way. -/
theorem section_told
    (h : Told f w) (hinv : Inv w.s) (hm : Move w.s f t) (hv : Visiting f w ch v sec stride k c)
    (hcur : w.cur = some v) (hpc : (w.s.fibers f).pc = .locked ch)
    (hs : sectionStep goroutine w.s f ch = some t) :
    Told f { w.note f t with s := t } ∧ At f { w.note f t with s := t } := by
  simp only [sectionStep, hv.lock, hv.fiber, ne_eq, not_true_eq_false, if_false] at hs
  have hu := hv.under
  cases hst : sec.stage with
  | popping =>
    rw [hst] at hu hs
    generalize hjob : sec.job = job at hu
    cases hu with
    | @popping _ q hopen hq hnow hnone =>
      subst hjob
      cases q with
      | nil =>
        rw [List.append_nil] at hq
        exact exhausted_told h hv hcur hpc hst hopen hq hnow hnone hs
      | cons x q => exact pop_told h hinv hm hv hcur hpc hst hopen hq hnow hnone hs
  | claimed x =>
    rw [hst] at hu hs
    generalize hjob : sec.job = job at hu
    cases hu with
    | claimed hopen hq hnow hclaim hx =>
      subst hjob
      exact fill_told h hinv hm hv hcur hpc hst hopen hq hnow hclaim hx hs
  | waking x =>
    rw [hst] at hs
    exact wake_told h hv hcur hpc hst hs

/-- The fiber is in no scan. -/
structure Apart (s : State V) (f : ℕ) : Prop where
  pc : ∀ stride k i, (s.fibers f).pc ≠ .tryCase stride k i
  plain : ∀ ch, (s.fibers f).pc = .locked ch →
    ∃ sec, (s.chans ch).lock = some sec ∧ sec.fiber = f ∧ sec.caller = .plain

theorem Apart.of_pc {pc : Pc} (hpc : (s.fibers f).pc = pc)
    (htry : ∀ stride k i, pc ≠ .tryCase stride k i) (hlock : ∀ ch, pc ≠ .locked ch) : Apart s f :=
  ⟨fun stride k i he => htry stride k i (hpc.symm.trans he),
    fun ch he => absurd (hpc.symm.trans he) (hlock ch)⟩

/-- The fiber takes a lock, or stays in a section, for a plain call. -/
theorem Apart.of_lock (hpc : (s.fibers f).pc = .locked ch)
    (hlock : (s.chans ch).lock = some sec) (hf : sec.fiber = f) (hplain : sec.caller = .plain) :
    Apart s f := by
  refine ⟨fun stride k i he => ?_, fun ch' he => ?_⟩
  · rw [hpc] at he
    cases he
  · rw [hpc] at he
    cases he
    exact ⟨sec, hlock, hf, hplain⟩

/-- A scan is entered by a draw only. -/
theorem Apart.move (h : Apart s f) (hk : Locks s) (hscan : (s.fibers f).pc ≠ .scan)
    (hm : Move s f t) : Apart t f := by
  have hgoto : ∀ (u : State V) (x : Fiber V), (∀ stride k i, x.pc ≠ .tryCase stride k i) →
      (∀ ch, x.pc ≠ .locked ch) → Apart (u.setFiber f x) f := fun u x htry hlock =>
    .of_pc (congrArg Fiber.pc (if_pos rfl)) htry hlock
  have hret : ∀ (u : State V) (out : Outcome V), Apart (u.ret f out) f := fun u out =>
    .of_pc (ret_own u f out).1 (by rintro _ _ _ ⟨⟩) (by rintro _ ⟨⟩)
  have hstay : ∀ {u : State V} {ch : ℕ} {c : Chan V} {sec sec' : Sect V}, u.fibers = s.fibers →
      (s.chans ch).lock = some sec → sec.fiber = f → sec'.fiber = sec.fiber →
      sec'.caller = sec.caller → Apart (u.stay ch c sec') f := by
    intro u ch c sec sec' hfib hsec hf hfiber hcaller
    have hpc : (s.fibers f).pc = .locked ch := hf ▸ hk.holder ch sec hsec
    have hlock : ((u.stay ch c sec').chans ch).lock = some sec' := congrArg Chan.lock (if_pos rfl)
    refine .of_lock ?_ hlock (hfiber.trans hf) ?_
    · exact (congrArg Fiber.pc (congrFun hfib f)).trans hpc
    · obtain ⟨sec₀, hsec₀, -, hplain⟩ := h.plain ch hpc
      rw [hsec] at hsec₀
      cases hsec₀
      exact hcaller.trans hplain
  have henter : ∀ {u : State V} {ch : ℕ} {c : Chan V} {job : Job V} {caller : Caller} {e : Case V},
      AtCase s f caller e → Apart (u.lockAs ch c ⟨f, caller, job, .popping⟩) f := by
    intro u ch c job caller e hat
    cases hat with
    | plain => exact .of_lock (goto_pc ..) (congrArg Chan.lock (if_pos rfl)) rfl rfl
    | scan hpc => exact absurd hpc (h.pc _ _ _)
  cases hm with
  | call | toScan | newPark | parkPlain | installDone | installReady | installPush | abortWin
  | abortLost | loadFired | loadNone | evictSkip | evictErase | evictFired | evictDone =>
    exact hgoto _ _ (by rintro _ _ _ ⟨⟩) (by rintro _ ⟨⟩)
  | draw hpc => exact absurd hpc hscan
  | sendClosed | retStart | retScan | bufferSend | recvClosed | gotDone | closeDone | refuse
  | wakeHand | wakeGot | resumeSend | resumeRecv | finishSend | finishRecv => exact hret _ _
  | enterHand hat | enterGot hat | enterTake hat => exact henter hat
  | enterClose => exact .of_lock (goto_pc ..) (congrArg Chan.lock (if_pos rfl)) rfl rfl
  | tombstone hsec hf | claimPlain hsec hf | claimSelect hsec hf | closeNext hsec hf
  | fillHand hsec hf | fillTake hsec hf | fillGot hsec hf | fillCloseTx hsec hf
  | fillCloseRx hsec hf | wakeClose hsec hf => exact hstay rfl hsec hf rfl rfl
  | nextCase hsec hf hst hcaller =>
    have hpc := hf ▸ hk.holder _ _ hsec
    obtain ⟨sec₀, hsec₀, -, hplain⟩ := h.plain _ hpc
    rw [hsec] at hsec₀
    cases hsec₀
    rw [hcaller] at hplain
    cases hplain
  | evictRetry | finishRetry =>
    obtain hr | hr := retry_cases s f
    · rw [hr]
      exact hret _ _
    · rw [hr]
      exact hgoto _ _ (by rintro _ _ _ ⟨⟩) (by rintro _ ⟨⟩)

/-- Outside a scan the watch has nothing open. -/
theorem Apart.at (h : Apart w.s f) (hcur : w.cur = none) : At f w := by
  unfold At
  split
  case h_1 hpc => exact absurd hpc (h.pc _ _ _)
  case h_2 ch hpc =>
    rw [hcur]
    exact h.plain ch hpc
  case h_3 => exact hcur

end Own

/-! ### Whole runs -/

section Run

variable {goroutine : ℕ → Bool} {f : ℕ} {w : Watch V} {t : State V}

structure Watched (f : ℕ) (w : Watch V) : Prop where
  inv : Inv w.s
  told : Told f w
  here : At f w

/-- A step of another fiber. -/
theorem Watched.other (h : Watched f w) {g : ℕ} (hg : f ≠ g) (hm : Move w.s g t) :
    Watched f { w with s := t } := by
  have hfib := hm.fibers_other hg
  refine ⟨h.inv.step hm, h.told.next fun hlt => ?_, ?_⟩
  · rw [hfib]
    exact ⟨hlt, hm.results_other hg _⟩
  have hsc : ∀ {stride k i : ℕ}, Scanning f w stride k i →
      Scanning f { w with s := t } stride k i := fun hsc =>
    ⟨by dsimp only; rw [hfib]; exact hsc.op, by dsimp only; rw [hfib]; exact hsc.call, hsc.stride,
      hsc.count, hsc.index, hsc.result, ⟨hsc.drawn.1, hsc.drawn.2, hsc.drawn.3, hsc.drawn.4⟩⟩
  have hat := h.here
  unfold At at hat ⊢
  dsimp only
  rw [hfib]
  split
  case h_1 hpc =>
    rw [hpc] at hat
    exact ⟨hsc hat.1, hat.2⟩
  case h_2 ch hpc =>
    rw [hpc] at hat
    dsimp only at hat ⊢
    split
    case h_1 v hcur =>
      rw [hcur] at hat
      obtain ⟨sec, stride, k, c, hv⟩ := hat
      have hchan := hm.chans_locked hv.lock (by rw [hv.fiber]; exact hg)
      exact ⟨sec, stride, k, c, by dsimp only; rw [hchan]; exact hv.lock, hv.fiber, hv.caller,
        hsc hv.scanning, hv.lt, hv.case, hv.home, hv.free, by dsimp only; rw [hchan]; exact hv.under,
        fun x hx => (hv.dead x hx).move h.inv.locks hm⟩
    case h_2 hcur =>
      rw [hcur] at hat
      obtain ⟨sec, hsec, hf, hplain⟩ := hat
      have hchan := hm.chans_locked hsec (by rw [hf]; exact hg)
      exact ⟨sec, by rw [hchan]; exact hsec, hf, hplain⟩
  case h_3 htry hlock =>
    split at hat
    case h_1 hpc => exact absurd hpc (htry _ _ _)
    case h_2 hpc => exact absurd hpc (hlock _)
    case h_3 => exact hat

/-- An own step outside a scan. -/
theorem Watched.apart (h : Watched f w) (hcur : w.cur = none) (hapart : Apart w.s f)
    (hscan : (w.s.fibers f).pc ≠ .scan) (hm : Move w.s f t) : Watched f { w with s := t } := by
  refine ⟨h.inv.step hm, h.told.next fun hlt => ?_, ?_⟩
  · obtain ⟨hres, hle⟩ := hm.results_own hlt
    exact ⟨Nat.lt_of_lt_of_le hlt hle, hres⟩
  · exact Apart.at (w := { w with s := t }) (hapart.move h.inv.locks hscan hm) hcur

theorem Watched.draw (h : Watched f w) {start stride : ℕ} (hm : Move w.s f t)
    (hfits : Fits (w.s.fibers f).op.cases.length start stride)
    (hs : step goroutine w.s (.draw f start stride) = some t) :
    Watched f { w.draw f start stride with s := t } := by
  simp only [step] at hs
  obtain ⟨⟨hpc, hstart, -, hlt, hcop⟩, hs⟩ := Option.ite_none_right_eq_some.mp hs
  cases hs
  have hsel := h.inv.locks.selecting f (by rw [hpc]; rfl)
  obtain ⟨cs, d, hop⟩ : ∃ cs d, (w.s.fibers f).op = .select cs d := by
    cases hop : (w.s.fibers f).op with
    | select cs d => exact ⟨cs, d, rfl⟩
    | plain => rw [hop] at hsel; cases hsel
    | close => rw [hop] at hsel; cases hsel
  have hself : (w.s.goto f (.tryCase stride 0 start)).fibers f =
      { w.s.fibers f with pc := .tryCase stride 0 start } := if_pos rfl
  have htold : Told f { w.draw f start stride with s := w.s.goto f (.tryCase stride 0 start) } := by
    dsimp only [Watch.draw]
    refine ⟨fun hd => ?_, Nat.zero_le _, rfl, fun v hv => ?_, fun _ v hv => ?_, fun ho => ?_,
      fun o ho => ?_⟩
    · exact (hd.elim (fun hn => hn rfl) fun hn => hn rfl).elim
    · cases hv
    · cases hv
    · cases ho
    · cases ho
  refine ⟨h.inv.step hm, htold, ?_⟩
  unfold At
  dsimp only
  rw [hself]
  refine ⟨⟨⟨d, ?_⟩, ?_, rfl, rfl, ?_, rfl, ⟨hstart, ?_, hcop, hfits⟩⟩, Nat.zero_le _, rfl⟩
  all_goals dsimp only [Watch.draw]
  · rw [hself, hop]
    rfl
  · rw [hself]
  · exact (strided_zero hstart).symm
  · omega

theorem Watched.advance (h : Watched f w) (hm : Move w.s f t)
    (hs : step goroutine w.s (.advance f) = some t) : Watched f { w.note f t with s := t } := by
  have hinv := h.inv.step hm
  have hother : ∀ pc, (w.s.fibers f).pc = pc → (∀ stride k i, pc ≠ .tryCase stride k i) →
      (∀ ch, pc ≠ .locked ch) → pc ≠ .scan → Watched f { w.note f t with s := t } := by
    intro pc hpc htry hlock hscan
    have hnote : w.note f t = w := by
      unfold Watch.note
      split
      case h_1 hp => exact absurd (hpc.symm.trans hp) (htry _ _ _)
      case h_2 hp => exact absurd (hpc.symm.trans hp) (hlock _)
      case h_3 => rfl
    have hcur : w.cur = none := by
      have hat := h.here
      unfold At at hat
      split at hat
      case h_1 hp => exact absurd (hpc.symm.trans hp) (htry _ _ _)
      case h_2 hp => exact absurd (hpc.symm.trans hp) (hlock _)
      case h_3 => exact hat
    rw [hnote]
    exact h.apart hcur (.of_pc hpc htry hlock) (by rw [hpc]; exact hscan) hm
  simp only [step] at hs
  cases hpc : (w.s.fibers f).pc with
  | idle => rw [hpc] at hs; cases hs
  | scan => rw [hpc] at hs; cases hs
  | tryCase stride k i =>
    rw [hpc] at hs
    obtain ⟨htold, hat⟩ := tryCase_told h.told h.here hpc hs
    exact ⟨hinv, htold, hat⟩
  | locked ch =>
    rw [hpc] at hs
    have hat := h.here
    unfold At at hat
    rw [hpc] at hat
    dsimp only at hat
    cases hcur : w.cur with
    | some v =>
      rw [hcur] at hat
      obtain ⟨sec, stride, k, c, hv⟩ := hat
      obtain ⟨htold, hat⟩ := section_told h.told h.inv hm hv hcur hpc hs
      exact ⟨hinv, htold, hat⟩
    | none =>
      rw [hcur] at hat
      obtain ⟨sec, hsec, hf, hplain⟩ := hat
      have hnote : w.note f t = w := by
        unfold Watch.note
        rw [hpc, hcur]
      rw [hnote]
      exact h.apart hcur (.of_lock hpc hsec hf hplain) (by rw [hpc]; rintro ⟨⟩) hm
  | start => exact hother _ hpc (by rintro _ _ _ ⟨⟩) (by rintro _ ⟨⟩) (by rintro ⟨⟩)
  | parked => exact hother _ hpc (by rintro _ _ _ ⟨⟩) (by rintro _ ⟨⟩) (by rintro ⟨⟩)
  | install i => exact hother _ hpc (by rintro _ _ _ ⟨⟩) (by rintro _ ⟨⟩) (by rintro ⟨⟩)
  | abort i => exact hother _ hpc (by rintro _ _ _ ⟨⟩) (by rintro _ ⟨⟩) (by rintro ⟨⟩)
  | selParked => exact hother _ hpc (by rintro _ _ _ ⟨⟩) (by rintro _ ⟨⟩) (by rintro ⟨⟩)
  | evict why j => exact hother _ hpc (by rintro _ _ _ ⟨⟩) (by rintro _ ⟨⟩) (by rintro ⟨⟩)
  | finish k => exact hother _ hpc (by rintro _ _ _ ⟨⟩) (by rintro _ ⟨⟩) (by rintro ⟨⟩)

/-- **Step lemma.** -/
theorem Watched.step (h : Watched f w) {a : Action V} {w' : Watch V} (hfits : fits w a)
    (hs : Watch.step goroutine f w a = some w') : Watched f w' := by
  obtain ⟨t, ht, rfl⟩ := Option.map_eq_some_iff.mp hs
  have hm := step_move ht
  cases a with
  | call g op =>
    by_cases hg : f = g
    · subst hg
      simp only [Select.step] at ht
      obtain ⟨hpc, -⟩ := Option.ite_none_right_eq_some.mp ht
      have hcur := h.here
      unfold At at hcur
      rw [hpc] at hcur
      exact h.apart hcur (.of_pc hpc (by rintro _ _ _ ⟨⟩) (by rintro _ ⟨⟩)) (by rw [hpc]; rintro ⟨⟩) hm
    · exact h.other hg hm
  | draw g start stride =>
    by_cases hg : f = g
    · subst hg
      dsimp only
      rw [if_pos rfl]
      exact h.draw hm hfits.2 ht
    · dsimp only
      rw [if_neg (Ne.symm hg)]
      exact h.other hg hm
  | advance g =>
    by_cases hg : f = g
    · subst hg
      dsimp only
      rw [if_pos rfl]
      exact h.advance hm ht
    · dsimp only
      rw [if_neg (Ne.symm hg)]
      exact h.other hg hm

theorem watched_init (h : (watch goroutine f).init w) : Watched f w := by
  obtain ⟨hinit, hvisits, hcur, hover⟩ := h
  have hnil : ∀ v, v ∉ w.visits := fun v hv => by
    rw [hvisits] at hv
    cases hv
  refine ⟨.init hinit, ⟨fun hd => ?_, ?_, ?_, fun v hv => absurd hv (hnil v),
    fun _ v hv => absurd hv (hnil v), fun ho => ?_, fun o ho => ?_⟩,
    Apart.at (.of_pc (hinit.2.1 f).1 (by rintro _ _ _ ⟨⟩) (by rintro _ ⟨⟩)) hcur⟩
  · exact (hd.elim (fun hn => hn hvisits) fun hn => hn hover).elim
  · rw [hvisits]
    exact Nat.zero_le _
  · rw [hvisits]
    rfl
  · rw [hover] at ho
    cases ho
  · rw [hover] at ho
    cases ho

theorem reachable_watched (h : Reachable ((watch goroutine f).restrict fits) w) : Watched f w := by
  refine h.invariant (fun w hw => ?_) fun w a w' _ hw hs => ?_
  · have hinit : (watch goroutine f).init w := hw
    exact watched_init hinit
  · obtain ⟨hfits, hst⟩ := System.restrict_step.mp hs
    exact hw.step hfits hst

/-- The channel that the scan of the fiber is about to lock or holds. -/
def Watch.target (w : Watch V) (f : ℕ) : Option ℕ :=
  match (w.s.fibers f).pc with
  | .tryCase _ k i => if k < w.cases.length then (w.cases[i]?).map Case.ch else none
  | .locked ch => w.cur.map fun _ => ch
  | _ => none

/-- In a section a fiber changes the channel of the section only. -/
theorem Move.chans_section {s : State V} {ch ch' : ℕ} (hm : Move s f t) (hk : Locks s)
    (hpc : (s.fibers f).pc = .locked ch) (hne : ch' ≠ ch) : t.chans ch' = s.chans ch' := by
  have hsec : ∀ {i : ℕ} {sec : Sect V} {c : Chan V}, (s.chans i).lock = some sec → sec.fiber = f →
      (if ch' = i then c else s.chans ch') = s.chans ch' := by
    intro i sec c hlock hf
    have hat := hk.holder i sec hlock
    rw [hf, hpc] at hat
    cases hat
    exact if_neg hne
  have hno : ∀ {pc : Pc}, (s.fibers f).pc = pc → pc ≠ .locked ch → t.chans ch' = s.chans ch' :=
    fun hp hn => absurd (hp.symm.trans hpc) hn
  cases hm with
  | tombstone hs hf | claimPlain hs hf | claimSelect hs hf | bufferSend hs hf | recvClosed hs hf
  | gotDone hs hf | closeNext hs hf | closeDone hs hf | refuse hs hf | parkPlain hs hf
  | nextCase hs hf | fillHand hs hf | fillTake hs hf | fillGot hs hf | fillCloseTx hs hf
  | fillCloseRx hs hf | wakeHand hs hf | wakeGot hs hf | wakeClose hs hf => exact hsec hs hf
  | sendClosed hat | enterHand hat | enterGot hat | enterTake hat => exact absurd hpc (hat.pc_ne ch)
  | call hp | toScan hp | draw hp | retStart hp | enterClose hp | retScan hp | newPark hp
  | resumeSend hp | resumeRecv hp | installDone hp | installReady hp | installPush hp | abortWin hp
  | abortLost hp | loadFired hp | loadNone hp | evictSkip hp | evictErase hp | evictRetry hp
  | evictFired hp | evictDone hp | finishSend hp | finishRecv hp | finishRetry hp => exact hno hp (by rintro ⟨⟩)

/-- The scan changes no channel but the one it visits. -/
theorem Watched.frame (h : Watched f w)
    (hscan : (∃ stride k i, (w.s.fibers f).pc = .tryCase stride k i) ∨ w.cur ≠ none)
    (hs : Select.step goroutine w.s (.advance f) = some t) {ch : ℕ} (hch : w.target f ≠ some ch) :
    t.chans ch = w.s.chans ch := by
  have hm : Move w.s f t := step_move hs
  have hat := h.here
  unfold At at hat
  unfold Watch.target at hch
  simp only [Select.step] at hs
  split at hat
  case h_1 stride k i hpc =>
    rw [hpc] at hs hch
    obtain ⟨d, hop⟩ := hat.1.op
    simp only [tryCase, hop] at hs
    dsimp only at hch
    split at hs
    case isTrue hlt =>
      rw [if_pos hlt] at hch
      split at hs
      case h_1 c hc =>
        rw [hc] at hch
        have hne : ch ≠ c.ch := fun he => hch (congrArg some he.symm)
        simp only [enter] at hs
        split at hs
        case isTrue => cases hs
        case isFalse =>
          split at hs
          all_goals
            split at hs
            all_goals
              cases hs
              first | rfl | exact if_neg hne
      case h_2 => cases hs
    case isFalse =>
      split at hs
      case isTrue =>
        cases hs
        rfl
      case isFalse =>
        split at hs
        all_goals
          cases hs
          rfl
  case h_2 ch' hpc =>
    rw [hpc] at hch
    cases hcur : w.cur with
    | some v =>
      rw [hcur] at hch
      exact hm.chans_section h.inv.locks hpc fun he => hch (congrArg some he.symm)
    | none =>
      rcases hscan with ⟨stride, k, i, hp⟩ | hn
      · rw [hpc] at hp
        cases hp
      · exact absurd hcur hn
  case h_3 htry _ =>
    rcases hscan with ⟨stride, k, i, hp⟩ | hn
    · exact absurd hp (htry _ _ _)
    · exact absurd hat hn

/-- **The fast path of a select.** For every number of cases and every state of the
random source the search for a stride ends, and the code visits each case once just
when no sum of an index and the stride is past `INT_MAX`, as with up to 2^30 cases. In
every run in which the drawn orders fit, a scan examines the cases in this order, each
once before it gives up; a visit does the operation of its case on the channel without
its dead waiters; a scan that gives up has found no case fireable, and each channel has
lost dead waiters only; a scan that returns a case has found it fireable. -/
theorem tryEach_exact :
    (∀ (n : ℕ) (x : UInt64), 1 ≤ n → n < 2 ^ 31 → ∃ start stride,
      visitOrder n x = some (start, stride) ∧ start < n ∧ 1 ≤ stride ∧ (stride = 1 ∨ stride < n) ∧
      Nat.gcd stride n = 1 ∧
      (((List.range n).map (visited n start stride)).Perm ((List.range n).map Nat.cast) ↔
        Fits n start stride) ∧ (n ≤ 2 ^ 30 → Fits n start stride)) ∧
    ∀ (goroutine : ℕ → Bool) (f : ℕ) (w : Watch V),
      Reachable ((watch goroutine f).restrict fits) w →
      (w.visits.map fun v => (v.case : ℤ)) =
        (List.range w.visits.length).map (visited w.cases.length w.start w.stride) ∧
      (∀ v ∈ w.visits, ∃ c q, w.cases[v.case]? = some c ∧ Examined c v q ∧
        (v.out = none → ¬Fireable v.fired v.before c.dir ∧ v.before.queue c.dir.peer = v.dead ∧
          v.after = v.before.setQueue [] c.dir.peer) ∧
        (v.out ≠ none → Fireable ((v.claim.map Prod.snd).getD v.fired) v.before c.dir)) ∧
      (w.result = some none → (w.visits.map (·.case)).Perm (List.range w.cases.length) ∧
        ∀ v ∈ w.visits, v.out = none) ∧
      (∀ o, w.result = some (some o) → ∃ l v, w.visits = l ++ [v] ∧ (∀ u ∈ l, u.out = none) ∧
        v.out = some o ∧ ∃ op, op.cases = w.cases ∧ w.s.results f w.call = some (op, o)) ∧
      ∀ t ch, ((∃ stride k i, (w.s.fibers f).pc = .tryCase stride k i) ∨ w.cur ≠ none) →
        step goroutine w.s (.advance f) = some t → w.target f ≠ some ch →
        t.chans ch = w.s.chans ch := by
  refine ⟨fun n x hn hmax => ?_, fun goroutine f w hr => ?_⟩
  · obtain ⟨start, stride, horder, hs, hpos, hlt, hcop⟩ := visitOrder_ends hn x
    exact ⟨start, stride, horder, hs, hpos, hlt, hcop, covers_iff hn hmax hs (by omega) hcop,
      fun hle => fits_of_le hn hle (by omega)⟩
  · have h := reachable_watched hr
    have htold := h.told
    refine ⟨?_, fun v hv => ?_, fun ho => ?_, fun o ho => ?_, fun t ch hscan hs hch => ?_⟩
    · by_cases hne : w.visits = []
      · rw [hne]
        rfl
      · have hd := htold.drawn (.inl hne)
        have hmap : (w.visits.map fun v => (v.case : ℤ)) = (w.visits.map (·.case)).map Nat.cast := by
          rw [List.map_map]
          rfl
        rw [hmap, htold.order, List.map_map]
        refine List.map_congr_left fun k hk => ?_
        have hlt : k < w.cases.length := Nat.lt_of_lt_of_le (List.mem_range.mp hk) htold.le
        exact (visited_eq hd.pos hd.start_lt hd.stride_le fun j hj => hd.fits j (by omega)).symm
    · obtain ⟨c, q, hc, hex⟩ := htold.examined v hv
      refine ⟨c, q, hc, hex, fun hout => ?_, fun hout => ?_⟩
      · obtain ⟨hnot, hqueue, hafter, -⟩ := hex.miss hout
        exact ⟨hnot, hqueue, hafter⟩
      · obtain ⟨o, ho⟩ := Option.ne_none_iff_exists'.mp hout
        exact hex.hit ho
    · obtain ⟨hlen, hmiss⟩ := htold.gaveUp ho
      have hd := htold.drawn (.inr (by rw [ho]; rintro ⟨⟩))
      refine ⟨?_, hmiss⟩
      rw [htold.order, hlen]
      exact strided_perm hd.pos hd.coprime
    · obtain ⟨l, v, hv, hl, hout, -, hres⟩ := htold.hit o ho
      exact ⟨l, v, hv, hl, hout, hres⟩
    · exact h.frame hscan hs hch

end Run

/-- A select of a receive and a send on empty channels, started at its second case,
gives up after a visit of each. -/
theorem tryEach_exact_default :
    ∃ w : Watch ℕ, Reachable ((watch (fun _ => true) 0).restrict fits) w ∧
      w.result = some none ∧ w.visits.map (·.case) = [1, 0] ∧
      (w.visits.map (·.case)).Perm (List.range 2) := by
  have hr : Reachable ((watch (fun _ => true) 0).restrict fits) _ := reachable_of_run _
    (.flatten [[.call 0 (.select [⟨0, .recv⟩, ⟨1, .send 5⟩] true), .advance 0, .draw 0 1 1],
      .replicate 5 (.advance 0)])
    (s := ⟨unbuffered, [], 0, 0, 0, [], none, none⟩) ⟨unbuffered_initial, rfl, rfl, rfl⟩ rfl
  exact ⟨_, hr, rfl, rfl, ((tryEach_exact.2 _ _ _ hr).2.2.1 rfl).1⟩

/-- With 1100000000 cases the generator has a state from which the second visit is at
a negative index. -/
theorem visited_negative :
    visitOrder 1100000000 378 = some (1098513144, 1091471853) ∧
    visited 1100000000 1098513144 1091471853 1 = -2104982299 ∧
    ¬((List.range 1100000000).map (visited 1100000000 1098513144 1091471853)).Perm
      ((List.range 1100000000).map Nat.cast) := by
  have hstart : (selectRand 378).toNat % 1100000000 = 1098513144 := by decide
  have hstride : 1 + (selectRand (selectRand 378)).toNat % (1100000000 - 1) = 1091471853 := by decide
  have hcop : Nat.gcd 1091471853 1100000000 = 1 := by decide
  refine ⟨?_, by decide, fun hperm => ?_⟩
  · have hsearch : coprimeStride 1100000000 (1099999999 + 1) 1091471853 = some 1091471853 := by
      rw [coprimeStride, selectGcd_eq, hcop]
      rfl
    rw [visitOrder, if_pos (by decide), hstart, hstride]
    dsimp only
    rw [if_pos (by decide), hsearch]
    rfl
  · have hfits := (covers_iff (by decide) (by decide) (by decide) (by decide) hcop).mp hperm
    have hfirst := hfits 0 (by decide)
    rw [strided_zero (by decide)] at hfirst
    exact absurd hfirst (by decide)

end Stackweave.Channel.Select
