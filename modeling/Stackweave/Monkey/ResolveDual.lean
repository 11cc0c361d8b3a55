import Stackweave.Monkey.DnsQuery
import Stackweave.Monkey.Parker

/-!
# `_resolve_dual` with both families (`monkey/dns.py`)

Two runner fibers resolve A and AAAA on hubs of their own; each stores its result,
counts `remaining[0]` down and wakes the caller when it then reads zero. The
count-down is a load and a store, and the test is one more load. The wake is a
byte in the pipe of a `_Parker` that may come from the pool, so the pipes keep
their bytes here, and the users of the pool are any number of calls and any
number of other parkers.
-/

namespace Stackweave.Monkey.ResolveDual

open Parker Dns DnsQuery Transition Function

/-! ## The bytes in the pipes -/

/-- `drained p`: the last read in `release()` of `p` found the pipe empty. -/
structure Pipes (O : Type) where
  desk : Desk O
  bytes : ℕ → ℕ
  drained : O → Bool

/-- What happens to one parker. -/
inductive Op
  | build (fdOnly : Bool) (c : Choice)
  /-- `unpark()` -/
  | write
  /-- the `os.read` at the end of `park()` -/
  | read
  | release
  /-- one turn of the loop that drains the pipe -/
  | drain
  | giveBack (pooled : Bool)
  deriving DecidableEq

def Pipes.init (O : Type) : Pipes O :=
  { desk := Desk.init O, bytes := fun _ => 0, drained := fun _ => false }

section

variable {O : Type} [DecidableEq O]

def Pipes.setBytes (s : Pipes O) (k n : ℕ) : Pipes O :=
  { s with bytes := Function.update s.bytes k n }

/-- A pipe made by `os.pipe` is empty. -/
def Pipes.build (s : Pipes O) (p : O) (fdOnly : Bool) (c : Choice) : Option (Pipes O) :=
  (s.desk.build p fdOnly c).map fun d =>
    match c with
    | .pipe k => { s.setBytes k 0 with desk := d }
    | _ => { s with desk := d }

/-- The number `self.w` may belong to anything by now; where it is no pipe of a
parker, the write is lost or goes elsewhere. -/
def Pipes.write (s : Pipes O) (p : O) : Pipes O :=
  match s.desk.pipe p with
  | some k => if s.desk.fd k = .pair then s.setBytes k (s.bytes k + 1) else s
  | none => s

/-- `os.read(self.r, 64)`, which raises `BlockingIOError` on an empty pipe. -/
def Pipes.read (s : Pipes O) (p : O) : Pipes O :=
  match s.desk.pipe p with
  | some k => s.setBytes k (s.bytes k - 64)
  | none => s

def Pipes.drain (s : Pipes O) (p : O) : Pipes O :=
  match s.desk.pipe p with
  | some k =>
    if s.bytes k = 0 then { s with drained := Function.update s.drained p true } else s.read p
  | none => s

/-- The program order of one parker: it is built once, parks and then releases.
Its wakers write whenever they like. -/
def Pipes.op (s : Pipes O) (p : O) : Op → Option (Pipes O)
  | .build fdOnly c => if s.desk.phase p = .unbuilt then s.build p fdOnly c else none
  | .write => some (s.write p)
  | .read => if s.desk.phase p = .live then some (s.read p) else none
  | .release =>
    if s.desk.phase p = .live then some { s with desk := s.desk.setPhase p .released } else none
  | .drain =>
    if s.desk.phase p = .released ∧ s.drained p = false then some (s.drain p) else none
  | .giveBack pooled =>
    if s.drained p = true then
      (s.desk.giveBack p pooled).map fun d => { s with desk := d }
    else none

/-- The bytes in the pipe that `p` holds. -/
def Pipes.own (s : Pipes O) (p : O) : ℕ :=
  match s.desk.pipe p with
  | some k => if (s.desk.phase p).holds then s.bytes k else 0
  | none => 0

end

/-! ## The calls -/

inductive Pc
  | idle
  /-- the parker is built; the first `_spawn` is next -/
  | spawnsA
  | spawnsAAAA
  /-- in `wait_fd(self.r, READ, -1)` -/
  | parks
  | reads
  | releases
  | drains
  | gathers
  | returned (out : List (Family × Addr))
  deriving DecidableEq

inductive Runner
  | unspawned
  | resolves
  /-- `results[idx]` is set; the load of `remaining[0]` is next -/
  | counts
  /-- it has loaded `v` -/
  | stores (v : ℤ)
  | checks
  /-- it has read zero -/
  | wakes
  | finished
  deriving DecidableEq

structure Call where
  pc : Pc
  runner : Fin 2 → Runner
  results : Fin 2 → Option (List Addr)
  remaining : ℤ

def Call.init : Call :=
  { pc := .idle, runner := fun _ => .unspawned, results := fun _ => none, remaining := 2 }

def Call.setRunner (c : Call) (i : Fin 2) (r : Runner) : Call :=
  { c with runner := Function.update c.runner i r }

/-- What the caller does with its parker, in program order. -/
def Pc.next : Pc → Op → Option Pc
  | .idle, .build true _ => some .spawnsA
  | .reads, .read => some .releases
  | .releases, .release => some .drains
  | .drains, .drain => some .drains
  | .drains, .giveBack _ => some .gathers
  | _, _ => none

def Call.spawn (c : Call) : Option Call :=
  match c.pc with
  | .spawnsA => some { c.setRunner 0 .resolves with pc := .spawnsAAAA }
  | .spawnsAAAA => some { c.setRunner 1 .resolves with pc := .parks }
  | _ => none

/-- `results[idx] = _resolve_qtype(...)`, or `[]` on an exception. -/
def Call.resolve (c : Call) (i : Fin 2) (r : Except Exc (List Addr)) : Option Call :=
  if c.runner i = .resolves then
    some { c.setRunner i .counts with
      results := Function.update c.results i (some (r.toOption.getD [])) }
  else none

def Call.load (c : Call) (i : Fin 2) : Option Call :=
  if c.runner i = .counts then some (c.setRunner i (.stores c.remaining)) else none

def Call.store (c : Call) (i : Fin 2) : Option Call :=
  match c.runner i with
  | .stores v => some { c.setRunner i .checks with remaining := v - 1 }
  | _ => none

def Call.check (c : Call) (i : Fin 2) : Option Call :=
  if c.runner i = .checks then
    some (c.setRunner i (if c.remaining = 0 then .wakes else .finished))
  else none

/-- `results[0] or ()` and `results[1] or ()`, with their families. -/
def Call.gathered (c : Call) : List (Family × Addr) :=
  label .inet ((c.results 0).getD []) ++ label .inet6 ((c.results 1).getD [])

def Call.gather (c : Call) : Option Call :=
  if c.pc = .gathers then some { c with pc := .returned c.gathered } else none

/-! ## The system -/

/-- The parkers: one of each call, and those of queues, mutexes and so on. -/
inductive User
  | call (k : ℕ)
  | other (j : ℕ)
  deriving DecidableEq

structure State where
  pipes : Pipes User
  call : ℕ → Call

def State.init : State := { pipes := Pipes.init User, call := fun _ => Call.init }

def State.setCall (s : State) (k : ℕ) (c : Call) : State :=
  { s with call := Function.update s.call k c }

inductive Act
  | other (j : ℕ) (o : Op)
  | caller (k : ℕ) (o : Op)
  | spawn (k : ℕ)
  /-- `wait_fd` finds the pipe readable -/
  | wait (k : ℕ)
  | gather (k : ℕ)
  | resolve (k : ℕ) (i : Fin 2) (r : Except Exc (List Addr))
  | load (k : ℕ) (i : Fin 2)
  | store (k : ℕ) (i : Fin 2)
  | check (k : ℕ) (i : Fin 2)
  | unpark (k : ℕ) (i : Fin 2)
  /-- some other part of the process opens or closes a descriptor -/
  | openOther (n : ℕ)
  | closeOther (n : ℕ)

/-- Only a byte ends the wait: there is no timeout. -/
def State.wait (s : State) (k : ℕ) : Option State :=
  match s.pipes.desk.pipe (.call k) with
  | some n =>
    if (s.call k).pc = .parks ∧ 0 < s.pipes.bytes n then
      some (s.setCall k { s.call k with pc := .reads })
    else none
  | none => none

def step (s : State) : Act → Option State
  | .other j o => (s.pipes.op (.other j) o).map fun p => { s with pipes := p }
  | .caller k o =>
    ((s.call k).pc.next o).bind fun pc =>
      (s.pipes.op (.call k) o).map fun p =>
        { s.setCall k { s.call k with pc := pc } with pipes := p }
  | .spawn k => (s.call k).spawn.map (s.setCall k)
  | .wait k => s.wait k
  | .gather k => (s.call k).gather.map (s.setCall k)
  | .resolve k i r => ((s.call k).resolve i r).map (s.setCall k)
  | .load k i => ((s.call k).load i).map (s.setCall k)
  | .store k i => ((s.call k).store i).map (s.setCall k)
  | .check k i => ((s.call k).check i).map (s.setCall k)
  | .unpark k i =>
    if (s.call k).runner i = .wakes then
      (s.pipes.op (.call k) .write).map fun p =>
        { s.setCall k ((s.call k).setRunner i .finished) with pipes := p }
    else none
  | .openOther n =>
    if s.pipes.desk.fd n = .free then
      some { s with pipes := { s.pipes with desk := s.pipes.desk.setFd n .other } }
    else none
  | .closeOther n =>
    if s.pipes.desk.fd n = .other then
      some { s with pipes := { s.pipes with desk := s.pipes.desk.setFd n .free } }
    else none

def system : System State Act where
  init s := s = State.init
  step := step

def Runner.loaded : Runner → Bool
  | .stores _ => true
  | _ => false

/-- The condition on a step: a runner does not load `remaining[0]` between the load
and the store of the other one, and no byte is written to a parker whose
`release()` has drained its pipe. -/
def Timely (s : State) : Act → Prop
  | .load k i => ∀ j, j ≠ i → ((s.call k).runner j).loaded = false
  | .unpark k _ => s.pipes.drained (.call k) = false
  | .other j .write => s.pipes.drained (.other j) = false
  | _ => True

instance (s : State) (a : Act) : Decidable (Timely s a) :=
  match a with
  | .load k i => inferInstanceAs (Decidable (∀ j, j ≠ i → ((s.call k).runner j).loaded = false))
  | .unpark k _ => inferInstanceAs (Decidable (s.pipes.drained (.call k) = false))
  | .other j .write => inferInstanceAs (Decidable (s.pipes.drained (.other j) = false))
  | .other _ (.build _ _) | .other _ .read | .other _ .release | .other _ .drain
  | .other _ (.giveBack _) | .caller _ _ | .spawn _ | .wait _ | .gather _ | .resolve _ _ _
  | .store _ _ | .check _ _ | .openOther _ | .closeOther _ => isTrue trivial

/-- The runs all of whose steps are timely. -/
def timely : System State Act := system.restrict Timely

/-- Both runners have finished and the caller is in a wait that nothing ends. -/
def Stuck (s : State) (k : ℕ) : Prop :=
  (∀ i, (s.call k).runner i = .finished) ∧ (s.call k).pc = .parks ∧ s.wait k = none

/-- The call has returned, if it has, what both its runners stored. -/
def Complete (c : Call) : Prop :=
  ∀ out, c.pc = .returned out → ∃ a aaaa, c.results 0 = some a ∧ c.results 1 = some aaaa ∧
    out = label .inet a ++ label .inet6 aaaa

/-! ## One owner for each byte -/

section

variable {O : Type}

/-- A pipe that a parker has drained and the pool keep no byte. -/
structure Clean (s : Pipes O) : Prop where
  owned : Owned s.desk
  pooled : ∀ k ∈ s.desk.pool, s.bytes k = 0
  drained : ∀ p k, s.drained p = true → s.desk.phase p = .released → s.desk.pipe p = some k →
    s.bytes k = 0
  finished : ∀ p, s.drained p = true → (s.desk.phase p).over = true
  givenBack : ∀ p, s.desk.phase p = .givenBack → s.drained p = true

theorem init_clean : Clean (Pipes.init O) := by
  constructor
  case owned => exact init_owned
  case pooled => intro k hk; cases hk
  case drained => intro p k hd; cases hd
  case finished => intro p hd; cases hd
  case givenBack => intro p hp; cases hp

variable {s t : Pipes O} {p : O} {k : ℕ}

/-- A parker that has a pipe and has not drained it holds it. -/
theorem Clean.holds (h : Clean s) (hk : s.desk.pipe p = some k)
    (hd : s.drained p = false) : (s.desk.phase p).holds = true := by
  cases hp : s.desk.phase p with
  | unbuilt => exact absurd hp (h.owned.built p k hk)
  | live | released => rfl
  | givenBack =>
    have := h.givenBack p hp
    rw [hd] at this
    cases this

/-- What a step of `p` leaves alone. -/
structure Frame (p : O) (s t : Pipes O) : Prop where
  phase : ∀ q, q ≠ p → t.desk.phase q = s.desk.phase q
  pipe : ∀ q, q ≠ p → t.desk.pipe q = s.desk.pipe q
  drained : ∀ q, q ≠ p → t.drained q = s.drained q
  own : ∀ q, q ≠ p → t.own q = s.own q

theorem own_congr {q : O} (hphase : t.desk.phase q = s.desk.phase q)
    (hpipe : t.desk.pipe q = s.desk.pipe q)
    (hbytes : ∀ k, s.desk.pipe q = some k → (s.desk.phase q).holds = true →
      t.bytes k = s.bytes k) : t.own q = s.own q := by
  simp only [Pipes.own, hphase, hpipe]
  cases hk : s.desk.pipe q with
  | none => rfl
  | some k =>
    cases hh : (s.desk.phase q).holds with
    | false => rfl
    | true => simp [hbytes k hk hh]

theorem own_eq (hk : s.desk.pipe p = some k)
    (hh : (s.desk.phase p).holds = true) : s.own p = s.bytes k := by
  simp [Pipes.own, hk, hh]

/-- The bytes of a pipe that `p` holds change; nothing else does. -/
theorem setBytes_clean (h : Clean s) {n : ℕ}
    (hk : s.desk.pipe p = some k) (hh : (s.desk.phase p).holds = true)
    (hn : s.drained p = true → n = 0) : Clean (s.setBytes k n) := by
  constructor
  case owned => exact h.owned
  case pooled =>
    intro j hj
    have hjk : j ≠ k := fun he => (h.owned.pair p k hk hh).2 (he ▸ hj)
    simp only [Pipes.setBytes, update_of_ne hjk]
    exact h.pooled j hj
  case drained =>
    intro q j hd hr hj
    by_cases hjk : j = k
    · subst hjk
      have hq : q = p := h.owned.one q p j hj (by rw [show s.desk.phase q = _ from hr]; rfl) hk hh
      simpa [Pipes.setBytes] using hn (hq ▸ hd)
    · simp only [Pipes.setBytes, update_of_ne hjk]
      exact h.drained q j hd hr hj
  case finished => exact h.finished
  case givenBack => exact h.givenBack

theorem setBytes_frame (h : Clean s) (n : ℕ)
    (hk : s.desk.pipe p = some k) (hh : (s.desk.phase p).holds = true) :
    Frame p s (s.setBytes k n) := by
  refine ⟨fun _ _ => rfl, fun _ _ => rfl, fun _ _ => rfl, fun q hq => ?_⟩
  refine own_congr rfl rfl fun j hj hqh => ?_
  have hjk : j ≠ k := fun he => hq (h.owned.one q p k (he ▸ hj) hqh hk hh)
  simp [Pipes.setBytes, hjk]

/-! ### Each operation -/

theorem Frame.refl (p : O) (s : Pipes O) : Frame p s s :=
  ⟨fun _ _ => rfl, fun _ _ => rfl, fun _ _ => rfl, fun _ _ => rfl⟩

theorem write_pipes (h : Clean s) (hd : s.drained p = false) :
    Clean (s.write p) ∧ Frame p s (s.write p) := by
  unfold Pipes.write
  cases hk : s.desk.pipe p with
  | none => exact ⟨h, .refl p s⟩
  | some k =>
    have hh := h.holds hk hd
    simp only [(h.owned.pair p k hk hh).1, if_true]
    exact ⟨setBytes_clean h hk hh (by simp [hd]), setBytes_frame h _ hk hh⟩

theorem write_own (h : Clean s) (hd : s.drained p = false)
    (hp : s.desk.pipe p ≠ none) : (s.write p).own p = s.own p + 1 := by
  obtain ⟨k, hk⟩ := Option.ne_none_iff_exists'.mp hp
  have hh := h.holds hk hd
  have hw : s.write p = s.setBytes k (s.bytes k + 1) := by
    simp [Pipes.write, hk, (h.owned.pair p k hk hh).1]
  rw [hw, own_eq hk hh, own_eq (s := s.setBytes k _) hk hh]
  simp [Pipes.setBytes]

theorem write_desk (s : Pipes O) (p : O) : (s.write p).desk = s.desk := by
  unfold Pipes.write
  split
  · split <;> rfl
  · rfl

theorem read_pipes (h : Clean s) (hh : (s.desk.phase p).holds = true) :
    Clean (s.read p) ∧ Frame p s (s.read p) := by
  unfold Pipes.read
  cases hk : s.desk.pipe p with
  | none => exact ⟨h, .refl p s⟩
  | some k =>
    refine ⟨setBytes_clean h hk hh fun hd => ?_, setBytes_frame h _ hk hh⟩
    -- only a released parker has drained its pipe, and then the pipe is empty
    have hover := h.finished p hd
    have hr : s.desk.phase p = .released := by
      cases hp : s.desk.phase p with
      | released => rfl
      | unbuilt | live | givenBack =>
        rw [hp] at hh hover
        first
          | cases hh; done
          | cases hover
    simp [h.drained p k hd hr hk]

theorem read_own (s : Pipes O) (p : O) : (s.read p).desk = s.desk ∧ (s.read p).own p ≤ s.own p := by
  unfold Pipes.read
  cases hk : s.desk.pipe p with
  | none => exact ⟨rfl, Nat.le_refl _⟩
  | some k =>
    refine ⟨rfl, ?_⟩
    simp only [Pipes.own, Pipes.setBytes, hk, update_self]
    split <;> omega

theorem elsewhere_clean (h : Clean s) {f : Fd} (hk : s.desk.fd k ≠ .pair) :
    Clean { s with desk := s.desk.setFd k f } :=
  ⟨h.owned.elsewhere hk, h.pooled, h.drained, h.finished, h.givenBack⟩

variable [DecidableEq O]

/-- A new parker takes an empty pipe, from the pool or from `os.pipe`. -/
theorem build_bytes (h : Clean s) {fdOnly : Bool} {c : Choice}
    (hs : s.build p fdOnly c = some t) :
    s.desk.build p fdOnly c = some t.desk ∧ t.drained = s.drained ∧
      (∀ k ∈ t.desk.pool, k ∈ s.desk.pool) ∧
      (∀ k, s.desk.fd k = .pair → t.bytes k = s.bytes k) ∧
      (∀ k, t.desk.pipe p = some k → t.bytes k = 0) ∧
      (fdOnly = true → t.desk.pipe p ≠ none) := by
  obtain ⟨d, hd, rfl⟩ := Option.map_eq_some_iff.mp hs
  cases c with
  | inmem =>
    refine ⟨hd, rfl, ?_⟩
    simp only [Desk.build] at hd
    split at hd
    case isTrue => cases hd
    case isFalse hfd =>
      cases hd
      refine ⟨fun _ hk => hk, fun _ _ => rfl, fun k hk => ?_, fun hf => absurd hf hfd⟩
      simp [Desk.setPipe] at hk
  | reuse =>
    refine ⟨hd, rfl, ?_⟩
    simp only [Desk.build] at hd
    split at hd
    case h_2 => cases hd
    case h_1 j hlast =>
      cases hd
      refine ⟨fun k hk => List.dropLast_subset _ hk, fun _ _ => rfl, fun k hk => ?_, fun _ => ?_⟩
      · simp only [Desk.setPipe, if_true, Option.some.injEq] at hk
        exact hk ▸ h.pooled j (List.mem_of_getLast? hlast)
      · simp [Desk.setPipe]
  | pipe j =>
    refine ⟨hd, rfl, ?_⟩
    simp only [Desk.build] at hd
    split at hd
    case isFalse => cases hd
    case isTrue hfree =>
      cases hd
      refine ⟨fun _ hk => hk, fun k hk => ?_, fun k hk => ?_, fun _ => ?_⟩
      · have hkj : k ≠ j := fun he => by rw [he, hfree] at hk; cases hk
        simp [Pipes.setBytes, hkj]
      · simp only [Desk.setPipe, if_true, Option.some.injEq] at hk
        simp [Pipes.setBytes, hk]
      · simp [Desk.setPipe]

theorem build_frame (h : Clean s) {fdOnly : Bool} {c : Choice}
    (hs : s.build p fdOnly c = some t) : Frame p s t := by
  obtain ⟨hd, hdrained, -, hbytes, -, -⟩ := build_bytes h hs
  have hphase : ∀ q, q ≠ p → t.desk.phase q = s.desk.phase q := by
    intro q hq
    rw [build_phase hd]
    exact if_neg hq
  have hpipe : ∀ q, q ≠ p → t.desk.pipe q = s.desk.pipe q := by
    intro q hq
    refine apply_pipe (f := .build p fdOnly) hd fun b he => hq ?_
    cases he
    rfl
  refine ⟨hphase, hpipe, fun q _ => by rw [hdrained], fun q hq => ?_⟩
  exact own_congr (hphase q hq) (hpipe q hq) fun k hk hh => hbytes k (h.owned.pair q k hk hh).1

theorem build_clean (h : Clean s) {fdOnly : Bool} {c : Choice}
    (hun : s.desk.phase p = .unbuilt) (hs : s.build p fdOnly c = some t) : Clean t := by
  obtain ⟨hd, hdrained, hpool, hbytes, -, -⟩ := build_bytes h hs
  have hframe := build_frame h hs
  have hlive : t.desk.phase p = .live := by
    rw [build_phase hd]
    exact if_pos rfl
  constructor
  case owned => exact build_owned h.owned hd
  case pooled =>
    intro k hk
    rw [hbytes k (h.owned.pooled k (hpool k hk))]
    exact h.pooled k (hpool k hk)
  case drained =>
    intro q k hq hr hk
    have hqp : q ≠ p := fun he => by rw [he, hlive] at hr; cases hr
    rw [hdrained] at hq
    rw [hframe.phase q hqp] at hr
    rw [hframe.pipe q hqp] at hk
    rw [hbytes k (h.owned.pair q k hk (by rw [hr]; rfl)).1]
    exact h.drained q k hq hr hk
  case finished =>
    intro q hq
    rw [hdrained] at hq
    have hqp : q ≠ p := fun he => by
      have := h.finished q hq
      rw [he, hun] at this
      cases this
    rw [hframe.phase q hqp]
    exact h.finished q hq
  case givenBack =>
    intro q hq
    have hqp : q ≠ p := fun he => by rw [he, hlive] at hq; cases hq
    rw [hframe.phase q hqp] at hq
    rw [hdrained]
    exact h.givenBack q hq

/-- The last turn of the drain. -/
theorem drained_clean (h : Clean s)
    (hr : s.desk.phase p = .released) (hk : s.desk.pipe p = some k) (hz : s.bytes k = 0) :
    Clean { s with drained := update s.drained p true } := by
  constructor
  case owned => exact h.owned
  case pooled => exact h.pooled
  case drained =>
    intro q j hd hrq hj
    by_cases hq : q = p
    · subst hq
      have hjk : j = k := Option.some.inj (hj.symm.trans hk)
      exact hjk ▸ hz
    · simp only [update_of_ne hq] at hd
      exact h.drained q j hd hrq hj
  case finished =>
    intro q hd
    by_cases hq : q = p
    · subst hq
      rw [hr]
      rfl
    · simp only [update_of_ne hq] at hd
      exact h.finished q hd
  case givenBack =>
    intro q hg
    by_cases hq : q = p
    · simp [hq]
    · simpa [update_of_ne hq] using h.givenBack q hg

theorem drain_pipes (h : Clean s) (hr : s.desk.phase p = .released) :
    Clean (s.drain p) ∧ Frame p s (s.drain p) := by
  unfold Pipes.drain
  cases hk : s.desk.pipe p with
  | none => exact ⟨h, .refl p s⟩
  | some k =>
    dsimp only
    split
    case isTrue hz =>
      refine ⟨drained_clean h hr hk hz, fun _ _ => rfl, fun _ _ => rfl, fun q hq => ?_,
        fun _ _ => rfl⟩
      exact update_of_ne hq _ _
    case isFalse => exact read_pipes h (by rw [hr]; rfl)

theorem drain_own (s : Pipes O) (p : O) :
    (s.drain p).desk = s.desk ∧ (s.drain p).own p ≤ s.own p := by
  unfold Pipes.drain
  cases hk : s.desk.pipe p with
  | none => exact ⟨rfl, Nat.le_refl _⟩
  | some k =>
    dsimp only
    split
    · exact ⟨rfl, Nat.le_refl _⟩
    · exact read_own s p

theorem release_pipes (h : Clean s) (hl : s.desk.phase p = .live) :
    Clean { s with desk := s.desk.setPhase p .released } ∧
      Frame p s { s with desk := s.desk.setPhase p .released } := by
  have hother : ∀ q, q ≠ p → (s.desk.setPhase p .released).phase q = s.desk.phase q :=
    fun q hq => if_neg hq
  have hself : (s.desk.setPhase p .released).phase p = .released := if_pos rfl
  have hfresh : s.drained p ≠ true := fun hd => by
    have := h.finished p hd
    rw [hl] at this
    cases this
  refine ⟨?_, hother, fun _ _ => rfl, fun _ _ => rfl, fun q hq => ?_⟩
  · constructor
    case owned => exact release_owned h.owned hl
    case pooled => exact h.pooled
    case drained =>
      intro q k hd hr hk
      have hq : q ≠ p := fun he => hfresh (he ▸ hd)
      exact h.drained q k hd (hother q hq ▸ hr) hk
    case finished =>
      intro q hd
      have hq : q ≠ p := fun he => hfresh (he ▸ hd)
      exact (hother q hq).symm ▸ h.finished q hd
    case givenBack =>
      intro q hg
      have hq : q ≠ p := fun he => by
        rw [he] at hg
        exact absurd (hself.symm.trans hg) (by decide)
      exact h.givenBack q (hother q hq ▸ hg)
  · exact own_congr (hother q hq) rfl fun _ _ _ => rfl

theorem giveBack_pipes (h : Clean s) {pooled : Bool} {d : Desk O}
    (hd : s.drained p = true) (hg : s.desk.giveBack p pooled = some d) :
    Clean { s with desk := d } ∧ Frame p s { s with desk := d } ∧ d.phase p = .givenBack := by
  obtain ⟨k, hr, hk, hphase, hpool⟩ := giveBack_cases hg
  have hother : ∀ q, q ≠ p → d.phase q = s.desk.phase q := fun q hq => by rw [hphase]; exact if_neg hq
  have hself : d.phase p = .givenBack := by rw [hphase]; exact if_pos rfl
  have hz := h.drained p k hd hr hk
  refine ⟨?_, ⟨hother, fun q _ => by rw [giveBack_pipe hg], fun _ _ => rfl, fun q hq => ?_⟩, hself⟩
  · constructor
    case owned => exact giveBack_owned h.owned hg
    case pooled =>
      intro j hj
      rcases hpool j hj with hj | rfl
      · exact h.pooled j hj
      · exact hz
    case drained =>
      intro q j hdq hrq hj
      have hq : q ≠ p := fun he => by
        rw [he] at hrq
        exact absurd (hself.symm.trans hrq) (by decide)
      exact h.drained q j hdq (hother q hq ▸ hrq) (giveBack_pipe hg ▸ hj)
    case finished =>
      intro q hdq
      by_cases hq : q = p
      · subst hq
        exact hself.symm ▸ rfl
      · exact (hother q hq).symm ▸ h.finished q hdq
    case givenBack =>
      intro q hq
      by_cases hqp : q = p
      · exact hqp ▸ hd
      · exact h.givenBack q (hother q hqp ▸ hq)
  · exact own_congr (hother q hq) (by rw [giveBack_pipe hg]) fun _ _ _ => rfl

/-- A step of `p` keeps the pipes clean and the other parkers as they are. -/
theorem op_clean (h : Clean s) {o : Op} (hs : s.op p o = some t)
    (hw : o = .write → s.drained p = false) : Clean t ∧ Frame p s t := by
  cases o with
  | build fdOnly c =>
    obtain ⟨hun, hs⟩ := Option.ite_none_right_eq_some.mp hs
    exact ⟨build_clean h hun hs, build_frame h hs⟩
  | write =>
    cases hs
    exact write_pipes h (hw rfl)
  | read =>
    obtain ⟨hl, hs⟩ := Option.ite_none_right_eq_some.mp hs
    cases hs
    exact read_pipes h (by rw [hl]; rfl)
  | release =>
    obtain ⟨hl, hs⟩ := Option.ite_none_right_eq_some.mp hs
    cases hs
    exact release_pipes h hl
  | drain =>
    obtain ⟨⟨hr, -⟩, hs⟩ := Option.ite_none_right_eq_some.mp hs
    cases hs
    exact drain_pipes h hr
  | giveBack pooled =>
    obtain ⟨hd, hs⟩ := Option.ite_none_right_eq_some.mp hs
    obtain ⟨d, hg, rfl⟩ := Option.map_eq_some_iff.mp hs
    obtain ⟨hc, hf, -⟩ := giveBack_pipes h hd hg
    exact ⟨hc, hf⟩

/-- The phase that a step leads to. -/
def Op.phase : Op → Phase → Phase
  | .build _ _, _ => .live
  | .release, _ => .released
  | .giveBack _, _ => .givenBack
  | _, ph => ph

/-- A step of `p` other than a write adds no byte to the pipe of `p`. -/
theorem op_self (h : Clean s) {o : Op} (hs : s.op p o = some t)
    (ho : o ≠ .write) : t.desk.phase p = o.phase (s.desk.phase p) ∧
      (t.desk.pipe p = none → s.desk.pipe p = none ∧ ∀ c, o ≠ .build true c) ∧
      t.own p ≤ s.own p := by
  cases o with
  | build fdOnly c =>
    obtain ⟨hun, hs⟩ := Option.ite_none_right_eq_some.mp hs
    obtain ⟨hd, -, -, -, hbytes, hsome⟩ := build_bytes h hs
    refine ⟨by rw [build_phase hd]; exact if_pos rfl, fun hn => ⟨?_, fun c' he => ?_⟩, ?_⟩
    · by_contra hk
      obtain ⟨k, hk⟩ := Option.ne_none_iff_exists'.mp hk
      exact h.owned.built p k hk hun
    · cases he
      exact hsome rfl hn
    · cases hk : t.desk.pipe p with
      | none => simp [Pipes.own, hk]
      | some k => simp [Pipes.own, hk, hbytes k hk]
  | write => exact absurd rfl ho
  | read =>
    obtain ⟨hl, hs⟩ := Option.ite_none_right_eq_some.mp hs
    cases hs
    obtain ⟨hd, hown⟩ := read_own s p
    rw [hd]
    exact ⟨rfl, fun hn => ⟨hn, by simp⟩, hown⟩
  | release =>
    obtain ⟨hl, hs⟩ := Option.ite_none_right_eq_some.mp hs
    cases hs
    refine ⟨if_pos rfl, fun hn => ⟨hn, by simp⟩, ?_⟩
    simp [Pipes.own, Desk.setPhase, hl, Phase.holds]
  | drain =>
    obtain ⟨-, hs⟩ := Option.ite_none_right_eq_some.mp hs
    cases hs
    obtain ⟨hd, hown⟩ := drain_own s p
    rw [hd]
    exact ⟨rfl, fun hn => ⟨hn, by simp⟩, hown⟩
  | giveBack pooled =>
    obtain ⟨hd, hs⟩ := Option.ite_none_right_eq_some.mp hs
    obtain ⟨d, hg, rfl⟩ := Option.map_eq_some_iff.mp hs
    obtain ⟨-, -, hgiven⟩ := giveBack_pipes h hd hg
    refine ⟨hgiven, fun hn => ⟨giveBack_pipe hg ▸ hn, by simp⟩, ?_⟩
    simp only [Pipes.own, giveBack_pipe hg, hgiven, Phase.holds]
    split <;> simp

end

/-! ## One call -/

def Runner.done : Runner → Bool
  | .unspawned | .resolves => false
  | _ => true

@[grind =]
def Runner.stored : Runner → Bool
  | .checks | .wakes | .finished => true
  | _ => false

def Runner.weight (r : Runner) : ℤ := if r.stored then 1 else 0

/-- How many runners have counted down. -/
def Call.counted (c : Call) : ℤ := (c.runner 0).weight + (c.runner 1).weight

/-- Both runners have counted down. -/
def Call.Both (c : Call) : Prop := ∀ i, (c.runner i).stored = true

/-- The runner `i` is not spawned yet. -/
@[grind =]
def Pc.before : Pc → Fin 2 → Bool
  | .idle, _ | .spawnsA, _ => true
  | .spawnsAAAA, i => i = 1
  | _, _ => false

/-- The caller has not taken the byte yet. -/
def Pc.waits : Pc → Bool
  | .spawnsA | .spawnsAAAA | .parks | .reads => true
  | _ => false

/-- `wait_fd` has returned. -/
def Pc.past : Pc → Bool
  | .reads | .releases | .drains | .gathers | .returned _ => true
  | _ => false

def Pc.phase : Pc → Phase
  | .idle => .unbuilt
  | .spawnsA | .spawnsAAAA | .parks | .reads | .releases => .live
  | .drains => .released
  | .gathers | .returned _ => .givenBack

/-- `own` is the number of bytes in the pipe of the call's parker. -/
structure Sound (c : Call) (own : ℕ) : Prop where
  fresh : ∀ i, c.pc.before i = true → c.runner i = .unspawned
  result : ∀ i, (c.runner i).done = true → c.results i ≠ none
  count : c.remaining = 2 - c.counted
  loaded : ∀ i v, c.runner i = .stores v → v = c.remaining
  alone : ∀ i j, (c.runner i).loaded = true → (c.runner j).loaded = true → i = j
  wakes : ∀ i, c.runner i = .wakes → c.Both
  byte : 0 < own → c.Both
  past : c.pc.past = true → c.Both
  pending : c.pc.waits = true → c.Both →
    0 < own ∨ ∃ i, c.runner i = .checks ∨ c.runner i = .wakes
  out : ∀ out, c.pc = .returned out → out = c.gathered

theorem weight_le_one (r : Runner) : r.weight ≤ 1 := by
  unfold Runner.weight
  split <;> decide

theorem weight_eq_one {r : Runner} : r.weight = 1 ↔ r.stored = true := by
  simp [Runner.weight]

variable {c d : Call} {own k : ℕ} {i : Fin 2} {s t : State}

theorem both_iff : c.Both ↔ c.counted = 2 := by
  have h0 := weight_le_one (c.runner 0)
  have h1 := weight_le_one (c.runner 1)
  simp only [Call.Both, Fin.forall_fin_two, Call.counted, ← weight_eq_one]
  omega

theorem Sound.both_iff_zero (h : Sound c own) :
    c.Both ↔ c.remaining = 0 := by
  rw [both_iff, h.count]
  omega

theorem counted_update {r : Runner}
    (hr : d.runner = update c.runner i r) :
    d.counted = c.counted - (c.runner i).weight + r.weight := by
  simp only [Call.counted, hr]
  match i with
  | 0 =>
    simp
    omega
  | 1 => simp

theorem init_sound : Sound Call.init 0 := by
  constructor
  case fresh => intro i _; rfl
  case result => intro i hi; cases hi
  case count => rfl
  case loaded => intro i v hi; cases hi
  case alone => intro i j hi; cases hi
  case wakes => intro i hi; cases hi
  case byte => intro hb; cases hb
  case past => intro hp; cases hp
  case pending => intro hp; cases hp
  case out => intro out ho; cases ho

/-- A step of the runner `i`, from `c` to `d`. -/
structure Turn (c d : Call) (i : Fin 2) : Prop where
  pc : d.pc = c.pc
  others : ∀ j, j ≠ i → d.runner j = c.runner j ∧ d.results j = c.results j
  spawned : c.runner i ≠ .unspawned
  result : (d.runner i).done = true → d.results i ≠ none
  count : d.remaining = c.remaining + (c.runner i).weight - (d.runner i).weight
  loaded : ∀ v, d.runner i = .stores v → v = d.remaining
  alone : (d.runner i).loaded = true → ∀ j, j ≠ i → (c.runner j).loaded = false
  kept : d.remaining = c.remaining ∨ (c.runner i).loaded = true
  wakes : d.runner i = .wakes → d.remaining = 0
  stored : (c.runner i).stored = true → (d.runner i).stored = true ∧ d.results i = c.results i

theorem Turn.both (ht : Turn c d i) (hb : c.Both) : d.Both := by
  intro j
  by_cases hj : j = i
  · exact hj ▸ (ht.stored (hb i)).1
  · rw [(ht.others j hj).1]
    exact hb j

theorem Turn.sound {own' : ℕ} (ht : Turn c d i) (h : Sound c own)
    (hbyte : 0 < own' → 0 < own ∨ d.Both)
    (hpend : d.pc.waits = true → d.Both →
      0 < own' ∨ d.runner i = .checks ∨ d.runner i = .wakes) : Sound d own' := by
  have hupd : d.runner = update c.runner i (d.runner i) := by
    funext j
    by_cases hj : j = i
    · simp [hj]
    · rw [update_of_ne hj, (ht.others j hj).1]
  have hcount : d.remaining = 2 - d.counted := by
    rw [counted_update hupd, ht.count, h.count]
    omega
  constructor
  case fresh =>
    intro j hj
    rw [ht.pc] at hj
    have hji : j ≠ i := fun he => ht.spawned (he ▸ h.fresh j hj)
    rw [(ht.others j hji).1]
    exact h.fresh j hj
  case result =>
    intro j hj
    by_cases hji : j = i
    · subst hji
      exact ht.result hj
    · rw [(ht.others j hji).1] at hj
      rw [(ht.others j hji).2]
      exact h.result j hj
  case count => exact hcount
  case loaded =>
    intro j v hj
    by_cases hji : j = i
    · subst hji
      exact ht.loaded v hj
    · rw [(ht.others j hji).1] at hj
      rcases ht.kept with he | hl
      · rw [he]
        exact h.loaded j v hj
      · exact absurd (h.alone j i (by rw [hj]; rfl) hl) hji
  case alone =>
    intro j j' hj hj'
    by_cases hji : j = i
    · by_cases hji' : j' = i
      · rw [hji, hji']
      · rw [(ht.others j' hji').1, ht.alone (hji ▸ hj) j' hji'] at hj'
        cases hj'
    · by_cases hji' : j' = i
      · rw [(ht.others j hji).1, ht.alone (hji' ▸ hj') j hji] at hj
        cases hj
      · rw [(ht.others j hji).1] at hj
        rw [(ht.others j' hji').1] at hj'
        exact h.alone j j' hj hj'
  case wakes =>
    intro j hj
    by_cases hji : j = i
    · subst hji
      have hz := ht.wakes hj
      exact both_iff.mpr (by omega)
    · rw [(ht.others j hji).1] at hj
      exact ht.both (h.wakes j hj)
  case byte =>
    intro hb
    exact (hbyte hb).elim (fun hb => ht.both (h.byte hb)) id
  case past =>
    intro hp
    rw [ht.pc] at hp
    exact ht.both (h.past hp)
  case pending =>
    intro hp hb
    exact (hpend hp hb).imp_right fun hi => ⟨i, hi⟩
  case out =>
    intro out ho
    rw [ht.pc] at ho
    have hb : c.Both := h.past (by rw [ho]; rfl)
    have hres : d.results = c.results := by
      funext j
      by_cases hji : j = i
      · subst hji
        exact (ht.stored (hb j)).2
      · exact (ht.others j hji).2
    rw [h.out out ho, Call.gathered, Call.gathered, hres]

/-! ### The steps of a runner -/

theorem resolve_turn {r : Except Exc (List Addr)}
    (hs : c.resolve i r = some d) : Turn c d i ∧ d.runner i = .counts := by
  obtain ⟨hi, hs⟩ := Option.ite_none_right_eq_some.mp hs
  cases hs
  refine ⟨?_, update_self ..⟩
  constructor
  case others => intro j hj; simp [Call.setRunner, hj]
  all_goals simp [Call.setRunner, hi, Runner.weight, Runner.stored, Runner.loaded]

theorem load_turn (h : Sound c own)
    (hok : ∀ j, j ≠ i → (c.runner j).loaded = false) (hs : c.load i = some d) :
    Turn c d i ∧ d.runner i = .stores c.remaining := by
  obtain ⟨hi, hs⟩ := Option.ite_none_right_eq_some.mp hs
  cases hs
  have hres := h.result i (by rw [hi]; rfl)
  refine ⟨?_, update_self ..⟩
  constructor
  case others => intro j hj; simp [Call.setRunner, hj]
  case alone => intro _ j hj; exact hok j hj
  all_goals simp [Call.setRunner, hi, hres, Runner.weight, Runner.stored]

theorem store_turn (h : Sound c own)
    (hs : c.store i = some d) : Turn c d i ∧ d.runner i = .checks := by
  simp only [Call.store] at hs
  split at hs
  case h_2 => cases hs
  case h_1 v hi =>
    cases hs
    have hres := h.result i (by rw [hi]; rfl)
    have hv := h.loaded i v hi
    refine ⟨?_, update_self ..⟩
    constructor
    case others => intro j hj; simp [Call.setRunner, hj]
    all_goals simp [Call.setRunner, hi, hv, hres, Runner.weight, Runner.stored, Runner.loaded]

theorem check_turn (h : Sound c own)
    (hs : c.check i = some d) :
    Turn c d i ∧ d.runner i = if c.remaining = 0 then .wakes else .finished := by
  obtain ⟨hi, hs⟩ := Option.ite_none_right_eq_some.mp hs
  cases hs
  have hres := h.result i (by rw [hi]; rfl)
  refine ⟨?_, update_self ..⟩
  constructor
  case others => intro j hj; simp [Call.setRunner, hj]
  all_goals
    by_cases hz : c.remaining = 0 <;>
      simp [Call.setRunner, hi, hz, hres, Runner.weight, Runner.stored, Runner.loaded]

theorem finish_turn (h : Sound c own)
    (hi : c.runner i = .wakes) : Turn c (c.setRunner i .finished) i := by
  have hres := h.result i (by rw [hi]; rfl)
  constructor
  case others => intro j hj; simp [Call.setRunner, hj]
  all_goals simp [Call.setRunner, hi, hres, Runner.weight, Runner.stored, Runner.loaded]

theorem resolve_sound {r : Except Exc (List Addr)}
    (h : Sound c own) (hs : c.resolve i r = some d) : Sound d own := by
  obtain ⟨ht, hi⟩ := resolve_turn hs
  refine ht.sound h .inl fun _ hb => ?_
  have := hb i
  rw [hi] at this
  cases this

theorem load_sound (h : Sound c own)
    (hok : ∀ j, j ≠ i → (c.runner j).loaded = false) (hs : c.load i = some d) : Sound d own := by
  obtain ⟨ht, hi⟩ := load_turn h hok hs
  refine ht.sound h .inl fun _ hb => ?_
  have := hb i
  rw [hi] at this
  cases this

theorem store_sound (h : Sound c own)
    (hs : c.store i = some d) : Sound d own := by
  obtain ⟨ht, hi⟩ := store_turn h hs
  exact ht.sound h .inl fun _ _ => .inr (.inl hi)

theorem check_sound (h : Sound c own)
    (hs : c.check i = some d) : Sound d own := by
  obtain ⟨ht, hi⟩ := check_turn h hs
  refine ht.sound h .inl fun _ hb => .inr (.inr ?_)
  -- the last one to count down reads zero
  have hboth : c.Both := by
    intro j
    by_cases hj : j = i
    · rw [hj, (Option.ite_none_right_eq_some.mp hs).1]
      rfl
    · exact (ht.others j hj).1 ▸ hb j
  rw [hi, if_pos (h.both_iff_zero.mp hboth)]

/-! ### The steps of the caller -/

/-- The runner `i` starts and the caller goes on to `pc`. -/
theorem Sound.start (h : Sound c own) {pc : Pc}
    (hi : c.runner i = .unspawned) (hbefore : ∀ j, pc.before j = true → c.pc.before j = true ∧ j ≠ i)
    (hpast : pc.past = false) : Sound { c.setRunner i .resolves with pc := pc } own := by
  have hnot : ¬ c.Both := fun hb => by
    have := hb i
    rw [hi] at this
    cases this
  have hrunner : ∀ j, j ≠ i → (c.setRunner i .resolves).runner j = c.runner j :=
    fun j hj => update_of_ne hj _ _
  have hself : (c.setRunner i .resolves).runner i = .resolves := update_self ..
  constructor
  case fresh =>
    intro j hj
    obtain ⟨hb, hji⟩ := hbefore j hj
    exact (hrunner j hji).trans (h.fresh j hb)
  case result =>
    intro j hj
    by_cases hji : j = i
    · subst hji
      rw [show _ = Runner.resolves from hself] at hj
      cases hj
    · exact h.result j (hrunner j hji ▸ hj)
  case count =>
    have := counted_update (d := { c.setRunner i .resolves with pc := pc }) rfl
    rw [this, hi]
    simpa [Runner.weight, Runner.stored, Call.setRunner] using h.count
  case loaded =>
    intro j v hj
    by_cases hji : j = i
    · subst hji
      cases hself.symm.trans hj
    · exact h.loaded j v ((hrunner j hji).symm.trans hj)
  case alone =>
    have hload : ∀ j, ((c.setRunner i .resolves).runner j).loaded = true →
        (c.runner j).loaded = true := by
      intro j hj
      by_cases hji : j = i
      · subst hji
        rw [hself] at hj
        cases hj
      · exact hrunner j hji ▸ hj
    intro j j' hj hj'
    exact h.alone j j' (hload j hj) (hload j' hj')
  case wakes =>
    intro j hj
    by_cases hji : j = i
    · subst hji
      cases hself.symm.trans hj
    · exact absurd (h.wakes j ((hrunner j hji).symm.trans hj)) hnot
  case byte => intro hb; exact absurd (h.byte hb) hnot
  case past => intro hp; rw [show pc.past = true from hp] at hpast; cases hpast
  case pending =>
    intro _ hb
    have := hb i
    rw [show _ = Runner.resolves from hself] at this
    cases this
  case out =>
    intro out ho
    rw [show pc = .returned out from ho] at hpast
    cases hpast

theorem spawn_sound (h : Sound c own) (hs : c.spawn = some d) :
    Sound d own := by
  simp only [Call.spawn] at hs
  split at hs
  case h_1 hpc =>
    cases hs
    refine h.start (h.fresh 0 (by rw [hpc]; rfl)) (fun j hj => ?_) rfl
    have : j = 1 := by simpa [Pc.before] using hj
    subst this
    exact ⟨by rw [hpc]; rfl, by decide⟩
  case h_2 hpc =>
    cases hs
    exact h.start (h.fresh 1 (by rw [hpc]; rfl)) (fun j hj => by cases hj) rfl
  case h_3 => cases hs

theorem spawn_pc (hs : c.spawn = some d) :
    d.pc.phase = c.pc.phase ∧ c.pc ≠ .idle := by
  simp only [Call.spawn] at hs
  split at hs
  case h_3 => cases hs
  all_goals
    rename_i hpc
    cases hs
    rw [hpc]
    exact ⟨rfl, by simp⟩

/-- The caller goes on to `pc` and may take bytes from its pipe. -/
theorem Sound.go {own' : ℕ} (h : Sound c own) {pc : Pc} (hown : own' ≤ own)
    (hbefore : ∀ i, pc.before i = true → c.pc.before i = true)
    (hpast : pc.past = true → c.pc.past = true ∨ 0 < own)
    (hwaits : pc.waits = true → c.pc = .idle ∨ c.pc.waits = true ∧ own' = own)
    (hout : ∀ out, pc = .returned out → out = c.gathered) :
    Sound { c with pc := pc } own' := by
  constructor
  case fresh => exact fun i hi => h.fresh i (hbefore i hi)
  case result => exact h.result
  case count => exact h.count
  case loaded => exact h.loaded
  case alone => exact h.alone
  case wakes => exact h.wakes
  case byte => exact fun hb => h.byte (Nat.lt_of_lt_of_le hb hown)
  case past => exact fun hp => (hpast hp).elim h.past h.byte
  case pending =>
    intro hw hb
    obtain hidle | ⟨hw, rfl⟩ := hwaits hw
    · have h0 : c.runner 0 = .unspawned := h.fresh 0 (by rw [hidle]; rfl)
      have := hb 0
      rw [show c.runner 0 = _ from h0] at this
      cases this
    · exact h.pending hw hb
  case out => exact hout

theorem gather_sound (h : Sound c own) (hs : c.gather = some d) :
    Sound d own := by
  obtain ⟨hpc, hs⟩ := Option.ite_none_right_eq_some.mp hs
  cases hs
  refine h.go (Nat.le_refl _) (fun i hi => by cases hi) (fun _ => .inl (by rw [hpc]; rfl))
    (fun hw => by cases hw) fun out ho => ?_
  cases ho
  rfl

/-! ## All the calls -/

structure Inv (s : State) : Prop where
  clean : Clean s.pipes
  phase : ∀ k, s.pipes.desk.phase (.call k) = (s.call k).pc.phase
  pipe : ∀ k, (s.call k).pc ≠ .idle → s.pipes.desk.pipe (.call k) ≠ none
  sound : ∀ k, Sound (s.call k) (s.pipes.own (.call k))

theorem init_inv : Inv State.init :=
  ⟨init_clean, fun _ => rfl, fun _ h => absurd rfl h, fun _ => init_sound⟩

/-- A step of call `k`, on its own state and on its parker. -/
theorem Inv.one (h : Inv s) {p : Pipes User} (hclean : Clean p)
    (hframe : Frame (.call k) s.pipes p) (hphase : p.desk.phase (.call k) = c.pc.phase)
    (hpipe : c.pc ≠ .idle → p.desk.pipe (.call k) ≠ none)
    (hsound : Sound c (p.own (.call k))) : Inv { s.setCall k c with pipes := p } := by
  have hne : ∀ j, j ≠ k → User.call j ≠ .call k := fun j hj he => hj (User.call.inj he)
  have hself : (s.setCall k c).call k = c := update_self ..
  have hother : ∀ j, j ≠ k → (s.setCall k c).call j = s.call j :=
    fun j hj => update_of_ne hj _ _
  refine ⟨hclean, fun j => ?_, fun j => ?_, fun j => ?_⟩
  · by_cases hj : j = k
    · subst hj
      simpa only [hself] using hphase
    · simpa only [hother j hj, hframe.phase _ (hne j hj)] using h.phase j
  · by_cases hj : j = k
    · subst hj
      simpa only [hself] using hpipe
    · simpa only [hother j hj, hframe.pipe _ (hne j hj)] using h.pipe j
  · by_cases hj : j = k
    · subst hj
      simpa only [hself] using hsound
    · simpa only [hother j hj, hframe.own _ (hne j hj)] using h.sound j

/-- A step of call `k` that leaves the pipes alone. -/
theorem Inv.quiet (h : Inv s)
    (hphase : c.pc.phase = (s.call k).pc.phase)
    (hpc : c.pc ≠ .idle → (s.call k).pc ≠ .idle)
    (hsound : Sound c (s.pipes.own (.call k))) : Inv (s.setCall k c) :=
  h.one h.clean (.refl _ _) ((h.phase k).trans hphase.symm) (fun hc => h.pipe k (hpc hc)) hsound

theorem Inv.turn (h : Inv s)
    (ht : Turn (s.call k) c i) (hsound : Sound c (s.pipes.own (.call k))) :
    Inv (s.setCall k c) :=
  h.quiet (by rw [ht.pc]) (fun hc => ht.pc ▸ hc) hsound

theorem other_inv {j : ℕ} {o : Op} (h : Inv s) (hok : Timely s (.other j o))
    (hs : step s (.other j o) = some t) : Inv t := by
  obtain ⟨p, hp, rfl⟩ := Option.map_eq_some_iff.mp hs
  obtain ⟨hclean, hframe⟩ := op_clean h.clean hp fun ho => by rw [ho] at hok; exact hok
  have hne : ∀ k, User.call k ≠ .other j := fun k he => by cases he
  refine ⟨hclean, fun k => ?_, fun k => ?_, fun k => ?_⟩
  · exact (hframe.phase _ (hne k)).trans (h.phase k)
  · rw [hframe.pipe _ (hne k)]
    exact h.pipe k
  · rw [hframe.own _ (hne k)]
    exact h.sound k

/-- The steps of the caller on its parker, one by one. -/
theorem next_cases {pc pc' : Pc} {o : Op} (h : pc.next o = some pc') :
    (∃ c, o = .build true c) ∧ pc = .idle ∧ pc' = .spawnsA ∨
    o = .read ∧ pc = .reads ∧ pc' = .releases ∨
    o = .release ∧ pc = .releases ∧ pc' = .drains ∨
    o = .drain ∧ pc = .drains ∧ pc' = .drains ∨
    (∃ pooled, o = .giveBack pooled) ∧ pc = .drains ∧ pc' = .gathers := by
  unfold Pc.next at h
  split at h
  all_goals
    cases h
    try simp

theorem caller_inv {o : Op} (h : Inv s)
    (hs : step s (.caller k o) = some t) : Inv t := by
  obtain ⟨pc, hpc, hs⟩ := Option.bind_eq_some_iff.mp hs
  obtain ⟨p, hp, rfl⟩ := Option.map_eq_some_iff.mp hs
  have hcases := next_cases hpc
  have ho : o ≠ .write := by
    rintro rfl
    simp at hcases
  obtain ⟨hclean, hframe⟩ := op_clean h.clean hp fun hw => absurd hw ho
  obtain ⟨hphase, hpipe, hown⟩ := op_self h.clean hp ho
  have hsome : p.desk.pipe (.call k) ≠ none := by
    intro hn
    obtain ⟨hn, hb⟩ := hpipe hn
    refine h.pipe k (fun hidle => ?_) hn
    obtain ⟨⟨c, hc⟩, -⟩ | ⟨-, he, -⟩ | ⟨-, he, -⟩ | ⟨-, he, -⟩ | ⟨-, he, -⟩ := hcases
    · exact hb c hc
    all_goals
      rw [hidle] at he
      cases he
  refine h.one hclean hframe ?_ (fun _ => hsome) ?_
  · rw [hphase, h.phase k]
    obtain ⟨⟨c, rfl⟩, he, rfl⟩ | ⟨rfl, he, rfl⟩ | ⟨rfl, he, rfl⟩ | ⟨rfl, he, rfl⟩ |
      ⟨⟨b, rfl⟩, he, rfl⟩ := hcases
    all_goals
      rw [he]
      rfl
  · have hsound := h.sound k
    obtain ⟨-, he, rfl⟩ | ⟨-, he, rfl⟩ | ⟨-, he, rfl⟩ | ⟨-, he, rfl⟩ | ⟨-, he, rfl⟩ := hcases
    · exact hsound.go hown (fun i _ => by rw [he]; rfl) (fun hp => by cases hp)
        (fun _ => .inl he) fun out ho => by cases ho
    all_goals
      exact hsound.go hown (fun i hi => by cases hi) (fun _ => .inl (by rw [he]; rfl))
        (fun hw => by cases hw) fun out ho => by cases ho

theorem wait_inv (h : Inv s) (hs : s.wait k = some t) : Inv t := by
  simp only [State.wait] at hs
  split at hs
  case h_2 => cases hs
  case h_1 n hn =>
    obtain ⟨⟨hpc, hbyte⟩, hs⟩ := Option.ite_none_right_eq_some.mp hs
    cases hs
    have hlive : (s.pipes.desk.phase (.call k)).holds = true := by
      rw [h.phase k, hpc]
      rfl
    have hown : 0 < s.pipes.own (.call k) := by
      rw [own_eq hn hlive]
      exact hbyte
    refine h.quiet (by rw [hpc]; rfl) (fun _ => by rw [hpc]; simp) ?_
    exact (h.sound k).go (Nat.le_refl _) (fun i hi => by cases hi) (fun _ => .inr hown)
      (fun _ => .inr ⟨by rw [hpc]; rfl, rfl⟩) fun out ho => by cases ho

theorem unpark_inv (h : Inv s)
    (hok : s.pipes.drained (.call k) = false) (hs : step s (.unpark k i) = some t) : Inv t := by
  obtain ⟨hi, hs⟩ := Option.ite_none_right_eq_some.mp hs
  obtain ⟨p, hp, rfl⟩ := Option.map_eq_some_iff.mp hs
  obtain ⟨hclean, hframe⟩ := op_clean h.clean hp fun _ => hok
  cases hp
  have hsound := h.sound k
  have hidle : (s.call k).pc ≠ .idle := fun he => by
    have := hsound.fresh i (by rw [he]; rfl)
    rw [hi] at this
    cases this
  have hown := write_own h.clean hok (h.pipe k hidle)
  have hturn := finish_turn hsound hi
  refine h.one hclean hframe ?_ (fun _ => ?_) ?_
  · rw [write_desk]
    exact h.phase k
  · rw [write_desk]
    exact h.pipe k hidle
  · refine hturn.sound hsound (fun _ => .inr (hturn.both (hsound.wakes i hi))) fun _ _ => .inl ?_
    rw [hown]
    exact Nat.succ_pos _

theorem step_inv {a : Act} (h : Inv s) (hok : Timely s a)
    (hs : step s a = some t) : Inv t := by
  cases a with
  | other j o => exact other_inv h hok hs
  | caller k o => exact caller_inv h hs
  | spawn k =>
    obtain ⟨c, hc, rfl⟩ := Option.map_eq_some_iff.mp hs
    obtain ⟨hphase, hpc⟩ := spawn_pc hc
    exact h.quiet hphase (fun _ => hpc) (spawn_sound (h.sound k) hc)
  | wait k => exact wait_inv h hs
  | gather k =>
    obtain ⟨c, hc, rfl⟩ := Option.map_eq_some_iff.mp hs
    obtain ⟨hpc, hd⟩ := Option.ite_none_right_eq_some.mp hc
    have hsound := gather_sound (h.sound k) hc
    cases hd
    exact h.quiet (by rw [hpc]; rfl) (fun _ => by rw [hpc]; simp) hsound
  | resolve k i r =>
    obtain ⟨c, hc, rfl⟩ := Option.map_eq_some_iff.mp hs
    exact h.turn (resolve_turn hc).1 (resolve_sound (h.sound k) hc)
  | load k i =>
    obtain ⟨c, hc, rfl⟩ := Option.map_eq_some_iff.mp hs
    exact h.turn (load_turn (h.sound k) hok hc).1 (load_sound (h.sound k) hok hc)
  | store k i =>
    obtain ⟨c, hc, rfl⟩ := Option.map_eq_some_iff.mp hs
    exact h.turn (store_turn (h.sound k) hc).1 (store_sound (h.sound k) hc)
  | check k i =>
    obtain ⟨c, hc, rfl⟩ := Option.map_eq_some_iff.mp hs
    exact h.turn (check_turn (h.sound k) hc).1 (check_sound (h.sound k) hc)
  | unpark k i => exact unpark_inv h hok hs
  | openOther n =>
    obtain ⟨hn, hs⟩ := Option.ite_none_right_eq_some.mp hs
    cases hs
    exact ⟨elsewhere_clean h.clean (by simp [hn]), h.phase, h.pipe, h.sound⟩
  | closeOther n =>
    obtain ⟨hn, hs⟩ := Option.ite_none_right_eq_some.mp hs
    cases hs
    exact ⟨elsewhere_clean h.clean (by simp [hn]), h.phase, h.pipe, h.sound⟩

theorem reachable_inv (h : Reachable timely s) : Inv s := by
  induction h with
  | start hs =>
    cases hs
    exact init_inv
  | next _ hs ih =>
    obtain ⟨hok, hs⟩ := System.restrict_step.mp hs
    exact step_inv ih hok hs

theorem Sound.complete (h : Sound c own) : Complete c := by
  intro out ho
  have hb : c.Both := h.past (by rw [ho]; rfl)
  have hdone : ∀ i, c.results i ≠ none := by
    intro i
    refine h.result i ?_
    have := hb i
    revert this
    cases c.runner i <;> simp [Runner.stored, Runner.done]
  obtain ⟨a, ha⟩ := Option.ne_none_iff_exists'.mp (hdone 0)
  obtain ⟨aaaa, haaaa⟩ := Option.ne_none_iff_exists'.mp (hdone 1)
  refine ⟨a, aaaa, ha, haaaa, ?_⟩
  rw [h.out out ho, Call.gathered, ha, haaaa]
  rfl

/-- Where both runners have finished, the caller's byte is in its pipe. -/
theorem Inv.not_stuck (h : Inv s) (k : ℕ) : ¬ Stuck s k := by
  rintro ⟨hfin, hpc, hwait⟩
  have hb : (s.call k).Both := fun i => by rw [hfin i]; rfl
  have hbyte : 0 < s.pipes.own (.call k) := by
    rcases (h.sound k).pending (by rw [hpc]; rfl) hb with hbyte | ⟨i, hi | hi⟩
    · exact hbyte
    all_goals
      rw [hfin i] at hi
      cases hi
  obtain ⟨n, hn⟩ := Option.ne_none_iff_exists'.mp (h.pipe k (by rw [hpc]; simp))
  have hlive : (s.pipes.desk.phase (.call k)).holds = true := by
    rw [h.phase k, hpc]
    rfl
  rw [own_eq hn hlive] at hbyte
  simp [State.wait, hn, hpc, hbyte] at hwait

/-- In every timely run a call that has returned returned the A addresses and then the
AAAA addresses that its runners stored, and no call is stuck behind finished
runners. -/
theorem resolveDual_waits {s : State} (h : Reachable timely s) (k : ℕ) :
    Complete (s.call k) ∧ ¬ Stuck s k :=
  ⟨((reachable_inv h).sound k).complete, (reachable_inv h).not_stuck k⟩

/-- Call 1 on the pipe of call 0. -/
def reused : List Act :=
  [.caller 0 (.build true (.pipe 3)), .spawn 0, .resolve 0 0 (.ok []), .spawn 0, .load 0 0,
    .store 0 0, .resolve 0 1 (.error (.osError "no DNS nameservers")), .load 0 1, .check 0 0,
    .store 0 1, .check 0 1, .unpark 0 1, .wait 0, .caller 0 .read, .caller 0 .release,
    .caller 0 .drain, .caller 0 (.giveBack true), .caller 1 (.build true .reuse), .spawn 1,
    .spawn 1, .resolve 1 1 (.ok [.inet6 (List.replicate 15 0 ++ [1])]), .load 1 1, .store 1 1, .check 1 1,
    .resolve 1 0 (.ok [.inet [127, 0, 0, 1]]), .load 1 0, .store 1 0, .check 1 0, .unpark 1 0,
    .wait 1, .caller 1 .read, .caller 1 .release, .caller 1 .drain, .caller 1 (.giveBack false),
    .gather 1]

theorem resolveDual_waits_reused :
    ∃ s, Reachable timely s ∧
      (s.call 1).pc = .returned [(.inet, .inet [127, 0, 0, 1]),
        (.inet6, .inet6 (List.replicate 15 0 ++ [1]))] ∧
      Complete (s.call 1) ∧ ¬ Stuck s 1 := by
  have hrun : (timely.run State.init reused).map (fun s => (s.call 1).pc) =
      some (.returned [(.inet, .inet [127, 0, 0, 1]),
        (.inet6, .inet6 (List.replicate 15 0 ++ [1]))]) := by
    decide +kernel
  obtain ⟨s, hs, hpc⟩ := Option.map_eq_some_iff.mp hrun
  have hreach : Reachable timely s := reachable_of_run timely reused rfl hs
  exact ⟨s, hreach, hpc, resolveDual_waits hreach 1⟩

/-- Both runners load 2 and store 1. -/
def lostDecrement : List Act :=
  [.caller 0 (.build true (.pipe 3)), .spawn 0, .spawn 0, .resolve 0 0 (.ok []),
    .resolve 0 1 (.ok []), .load 0 0, .load 0 1, .store 0 0, .check 0 0, .store 0 1, .check 0 1]

/-- Both runners of call 0 read zero; the second one writes when the pipe is pooled
again, and call 1 takes it from there. -/
def lateWake : List Act :=
  [.caller 0 (.build true (.pipe 3)), .spawn 0, .spawn 0, .resolve 0 0 (.ok []),
    .resolve 0 1 (.ok []), .load 0 0, .store 0 0, .load 0 1, .store 0 1, .check 0 0, .check 0 1,
    .unpark 0 0, .wait 0, .caller 0 .read, .caller 0 .release, .caller 0 .drain,
    .caller 0 (.giveBack true), .unpark 0 1, .caller 1 (.build true .reuse), .spawn 1, .spawn 1,
    .wait 1, .caller 1 .read, .caller 1 .release, .caller 1 .drain, .caller 1 (.giveBack true),
    .gather 1]

/-- Without the condition a lost decrement leaves the caller stuck, and a late wake lets
the next user of the pipe return with nothing stored. -/
theorem lostDecrement_stuck_lateWake_early :
    (∃ s, Reachable system s ∧ Stuck s 0) ∧
    ∃ s, Reachable system s ∧ (s.call 1).pc = .returned [] ∧ (s.call 1).results 0 = none ∧
      ¬ Complete (s.call 1) := by
  constructor
  · have hrun : (system.run State.init lostDecrement).map (fun s =>
        ((s.call 0).runner 0, (s.call 0).runner 1, (s.call 0).pc, (s.wait 0).isNone)) =
        some (.finished, .finished, .parks, true) := by
      decide +kernel
    obtain ⟨s, hs, hobs⟩ := Option.map_eq_some_iff.mp hrun
    simp only [Prod.mk.injEq, Option.isNone_iff_eq_none] at hobs
    obtain ⟨h0, h1, hpc, hwait⟩ := hobs
    exact ⟨s, reachable_of_run system lostDecrement rfl hs,
      Fin.forall_fin_two.mpr ⟨h0, h1⟩, hpc, hwait⟩
  · have hrun : (system.run State.init lateWake).map (fun s =>
        ((s.call 1).pc, (s.call 1).results 0)) = some (.returned [], none) := by
      decide +kernel
    obtain ⟨s, hs, hobs⟩ := Option.map_eq_some_iff.mp hrun
    simp only [Prod.mk.injEq] at hobs
    obtain ⟨hpc, hres⟩ := hobs
    refine ⟨s, reachable_of_run system lateWake rfl hs, hpc, hres, fun hc => ?_⟩
    obtain ⟨a, -, ha, -⟩ := hc [] hpc
    rw [hres] at ha
    cases ha

end Stackweave.Monkey.ResolveDual
