import Mathlib.Data.List.Nodup
import Mathlib.Logic.Function.Basic
import Stackweave.Transition

/-!
# `_Parker` and the pipe pool (`monkey/_base.py`)

A *site* is one object whose callers park: a queue, a mutex, a condition, the
thread-pool backend. It runs its own steps and tells what a step does to a
parker: build it, choose it for a wake, write its byte, release it. A network
runs any family of sites over one desk, which holds the pool of pipes and the
process's descriptors; the number of a closed pipe may go to any other open.
Every parker of a site has a number of its own.

The pair `(r, w)` is one number here, that of `w`; the two ends are pooled and
closed together.
-/

namespace Stackweave.Monkey.Parker

open Transition Function

/-- What a step does to a parker. -/
inductive Effect (P : Type)
  | quiet
  /-- `_Parker(inmem=...)`; `fdOnly` when the caller never passes `inmem` -/
  | build (p : P) (fdOnly : Bool)
  /-- from here on the waker is bound to call `unpark` on each of these -/
  | choose (ps : List P)
  /-- `unpark()`, for a parker with a pipe its `os.write` -/
  | write (p : P)
  /-- the first access of `release()` -/
  | release (p : P)
  deriving DecidableEq

/-- The life of a parker as its own call sees it. -/
inductive Stage
  | before
  | during
  | after

/-- How a step with the effect `f` moves the stage of the parker `p`. A call that
needs no parker goes past it. -/
def Moves (f : Effect ℕ) (p : ℕ) (x y : Stage) : Prop :=
  (∃ fdOnly, f = .build p fdOnly) ∧ x = .before ∧ y = .during ∨
  f = .release p ∧ x = .during ∧ y = .after ∨
  (∀ fdOnly, f ≠ .build p fdOnly) ∧ f ≠ .release p ∧ (x = y ∨ x = .before ∧ y = .after)

theorem Moves.same {f : Effect ℕ} {p : ℕ} (hb : ∀ fdOnly, f ≠ .build p fdOnly)
    (hr : f ≠ .release p) (x : Stage) : Moves f p x x :=
  .inr (.inr ⟨hb, hr, .inl rfl⟩)

/-- A step of one call moves no parker but its own. -/
theorem Moves.one {f : Effect ℕ} {n : ℕ} {x y : ℕ → Stage} (hn : Moves f n (x n) (y n))
    (hxy : ∀ m, m ≠ n → y m = x m)
    (hf : f = .quiet ∨ (∃ fdOnly, f = .build n fdOnly) ∨ f = .release n) (m : ℕ) :
    Moves f m (x m) (y m) := by
  by_cases hm : m = n
  · exact hm ▸ hn
  · rw [hxy m hm]
    rcases hf with rfl | ⟨fdOnly, rfl⟩ | rfl
    · exact .same (by simp) (by simp) _
    · exact .same (by simp [Ne.symm hm]) (by simp) _
    · exact .same (by simp) (by simp [Ne.symm hm]) _

/-- One object and its callers. `Inv` is what the stages rest on; `Writing s p`
says that some waker is bound to call `p.unpark()` and has not done so. -/
structure Site where
  State : Type
  Action : Type
  init : State
  step : State → Action → Option State
  effect : State → Action → Effect ℕ
  stage : State → ℕ → Stage
  Inv : State → Prop
  Writing : State → ℕ → Prop
  inv_init : Inv init
  inv_step : ∀ {s a t}, Inv s → step s a = some t → Inv t
  stage_init : ∀ p, stage init p = .before
  stage_step : ∀ {s a t}, Inv s → step s a = some t →
    ∀ p, Moves (effect s a) p (stage s p) (stage t p)
  writing_step : ∀ {s a t p}, step s a = some t → Writing t p →
    Writing s p ∨ ∃ ps, effect s a = .choose ps ∧ p ∈ ps
  writing_write : ∀ {s a t p}, step s a = some t → effect s a = .write p → Writing s p

/-! ## The desk -/

inductive Phase
  | unbuilt
  | live
  /-- `release()` has begun -/
  | released
  /-- and has pooled or closed the pipe -/
  | givenBack
  deriving DecidableEq

inductive Fd
  | free
  /-- a pipe of a parker or of the pool -/
  | pair
  | other
  deriving DecidableEq

/-- `pipe p` stays what `self.w` is, also after the release. -/
structure Desk (O : Type) where
  phase : O → Phase
  pipe : O → Option ℕ
  pool : List ℕ
  fd : ℕ → Fd

def Desk.init (O : Type) : Desk O :=
  { phase := fun _ => .unbuilt, pipe := fun _ => none, pool := [], fd := fun _ => .free }

/-- How `__init__` gets its pipe; `os.pipe` may return any free number. -/
inductive Choice
  | inmem
  | reuse
  | pipe (k : ℕ)
  deriving DecidableEq

/-- `_POOL_CAP` -/
def poolCap : ℕ := 64

variable {O : Type} [DecidableEq O]

def Desk.setPhase (d : Desk O) (p : O) (ph : Phase) : Desk O :=
  { d with phase := fun q => if q = p then ph else d.phase q }

def Desk.setPipe (d : Desk O) (p : O) (k : Option ℕ) : Desk O :=
  { d with pipe := fun q => if q = p then k else d.pipe q }

def Desk.setFd (d : Desk O) (k : ℕ) (f : Fd) : Desk O :=
  { d with fd := fun j => if j = k then f else d.fd j }

@[grind =]
def Desk.build (d : Desk O) (p : O) (fdOnly : Bool) : Choice → Option (Desk O)
  | .inmem => if fdOnly then none else some ((d.setPhase p .live).setPipe p none)
  | .reuse =>
    match d.pool.getLast? with
    | some k => some (({ d with pool := d.pool.dropLast }.setPhase p .live).setPipe p (some k))
    | none => none
  | .pipe k =>
    if d.fd k = .free then some (((d.setFd k .pair).setPhase p .live).setPipe p (some k))
    else none

def Desk.apply (d : Desk O) (c : Choice) : Effect O → Option (Desk O)
  | .build p fdOnly => d.build p fdOnly c
  | .release p => some (d.setPhase p .released)
  | _ => some d

/-- The end of `release()`: pool the pipe, or close it when the pool is full or
its lock is taken. -/
def Desk.giveBack (d : Desk O) (p : O) (pooled : Bool) : Option (Desk O) :=
  match d.phase p, d.pipe p with
  | .released, some k =>
    if pooled then
      if d.pool.length < poolCap then
        some ({ d with pool := d.pool ++ [k] }.setPhase p .givenBack)
      else none
    else some ((d.setFd k .free).setPhase p .givenBack)
  | _, _ => none

/-- Between the build and the end of `release()`. -/
@[grind =]
def Phase.holds : Phase → Bool
  | .live | .released => true
  | _ => false

/-- `release()` has begun. -/
def Phase.over : Phase → Bool
  | .released | .givenBack => true
  | _ => false

/-- Every pipe has one owner: a parker that has not given it back, or the pool. -/
structure Owned (d : Desk O) : Prop where
  pair : ∀ p k, d.pipe p = some k → (d.phase p).holds = true → d.fd k = .pair ∧ k ∉ d.pool
  one : ∀ p q k, d.pipe p = some k → (d.phase p).holds = true → d.pipe q = some k →
    (d.phase q).holds = true → p = q
  pooled : ∀ k ∈ d.pool, d.fd k = .pair
  nodup : d.pool.Nodup
  built : ∀ p k, d.pipe p = some k → d.phase p ≠ .unbuilt

omit [DecidableEq O] in
theorem init_owned : Owned (Desk.init O) := by
  constructor
  case pair => intro p k hp; cases hp
  case one => intro p q k hp; cases hp
  case pooled => intro k hk; cases hk
  case nodup => exact List.nodup_nil
  case built => intro p k hp; cases hp

/-- A new parker takes over a pipe that nobody holds any more. -/
theorem Owned.take {d e : Desk O} (h : Owned d) {p : O} {k : ℕ}
    (hphase : e.phase = fun q => if q = p then .live else d.phase q)
    (hpipe : e.pipe = fun q => if q = p then some k else d.pipe q)
    (hfd : ∀ j, j ≠ k → e.fd j = d.fd j) (hk : e.fd k = .pair)
    (hfree : ∀ q, d.pipe q = some k → (d.phase q).holds = false)
    (hpool : ∀ j, j ∈ e.pool ↔ j ∈ d.pool ∧ j ≠ k) (hnd : e.pool.Nodup) : Owned e := by
  have hother : ∀ q j, q ≠ p → e.pipe q = some j → (e.phase q).holds = true →
      d.pipe q = some j ∧ (d.phase q).holds = true ∧ j ≠ k := by
    intro q j hq hj hh
    simp only [hpipe, hphase, if_neg hq] at hj hh
    refine ⟨hj, hh, fun he => ?_⟩
    rw [hfree q (he ▸ hj)] at hh
    cases hh
  have hself : ∀ j, e.pipe p = some j → j = k := by
    intro j hj
    simpa [hpipe, eq_comm] using hj
  constructor
  case pair =>
    intro q j hj hh
    by_cases hq : q = p
    · subst hq
      rw [hself j hj]
      exact ⟨hk, fun hm => ((hpool k).mp hm).2 rfl⟩
    · obtain ⟨hj, hh, hne⟩ := hother q j hq hj hh
      obtain ⟨hp, hm⟩ := h.pair q j hj hh
      exact ⟨by rw [hfd j hne]; exact hp, fun hm' => hm ((hpool j).mp hm').1⟩
  case one =>
    intro q r j hqj hqh hrj hrh
    by_cases hq : q = p
    · by_cases hr : r = p
      · rw [hq, hr]
      · exact absurd (hself j (hq ▸ hqj)) (hother r j hr hrj hrh).2.2
    · by_cases hr : r = p
      · exact absurd (hself j (hr ▸ hrj)) (hother q j hq hqj hqh).2.2
      · obtain ⟨hqj, hqh, -⟩ := hother q j hq hqj hqh
        obtain ⟨hrj, hrh, -⟩ := hother r j hr hrj hrh
        exact h.one q r j hqj hqh hrj hrh
  case pooled =>
    intro j hj
    obtain ⟨hj, hne⟩ := (hpool j).mp hj
    rw [hfd j hne]
    exact h.pooled j hj
  case nodup => exact hnd
  case built =>
    intro q j hj
    by_cases hq : q = p
    · simp [hphase, hq]
    · simp only [hpipe, hphase, if_neg hq] at hj ⊢
      exact h.built q j hj

theorem build_owned {d e : Desk O} (h : Owned d) {p : O} {fdOnly : Bool} {c : Choice}
    (hb : d.build p fdOnly c = some e) : Owned e := by
  cases c with
  | inmem =>
    simp only [Desk.build] at hb
    split at hb
    case isTrue => cases hb
    case isFalse =>
      cases hb
      have hother : ∀ q k, ((d.setPhase p .live).setPipe p none).pipe q = some k →
          q ≠ p ∧ d.pipe q = some k := by
        intro q k hk
        by_cases hq : q = p
        · simp [Desk.setPipe, hq] at hk
        · exact ⟨hq, by simpa [Desk.setPipe, Desk.setPhase, hq] using hk⟩
      have hphase : ∀ q, q ≠ p → ((d.setPhase p .live).setPipe p none).phase q = d.phase q := by
        intro q hq
        simp [Desk.setPipe, Desk.setPhase, hq]
      constructor
      case pair =>
        intro q k hk hh
        obtain ⟨hq, hk⟩ := hother q k hk
        rw [hphase q hq] at hh
        exact h.pair q k hk hh
      case one =>
        intro q r k hqk hqh hrk hrh
        obtain ⟨hq, hqk⟩ := hother q k hqk
        obtain ⟨hr, hrk⟩ := hother r k hrk
        rw [hphase q hq] at hqh
        rw [hphase r hr] at hrh
        exact h.one q r k hqk hqh hrk hrh
      case pooled => exact h.pooled
      case nodup => exact h.nodup
      case built =>
        intro q k hk
        obtain ⟨hq, hk⟩ := hother q k hk
        rw [hphase q hq]
        exact h.built q k hk
  | reuse =>
    simp only [Desk.build] at hb
    split at hb
    case h_2 => cases hb
    case h_1 k hlast =>
      cases hb
      have hsplit : d.pool = d.pool.dropLast ++ [k] :=
        (List.dropLast_append_getLast? k hlast).symm
      have hmem : k ∈ d.pool := by rw [hsplit]; simp
      have hnd := h.nodup
      rw [hsplit] at hnd
      have hnot : k ∉ d.pool.dropLast := by
        intro hk
        exact (List.nodup_append.mp hnd).2.2 k hk k (by simp) rfl
      refine h.take rfl rfl (fun _ _ => rfl) (h.pooled k hmem) ?_ ?_ (List.nodup_append.mp hnd).1
      · intro q hq
        by_contra hh
        exact (h.pair q k hq (by simpa using hh)).2 hmem
      · intro j
        rw [hsplit]
        simp only [List.mem_append, List.mem_singleton, Desk.setPipe, Desk.setPhase]
        constructor
        · intro hj
          exact ⟨.inl (by simpa using hj), fun he => hnot (he ▸ by simpa using hj)⟩
        · rintro ⟨hj | hj, hne⟩
          · simpa using hj
          · exact absurd hj hne
  | pipe k =>
    simp only [Desk.build] at hb
    split at hb
    case isFalse => cases hb
    case isTrue hfree =>
      cases hb
      have hnot : k ∉ d.pool := by
        intro hk
        rw [h.pooled k hk] at hfree
        cases hfree
      refine h.take rfl rfl (fun j hj => by simp [Desk.setPipe, Desk.setPhase, Desk.setFd, hj])
        (by simp [Desk.setPipe, Desk.setPhase, Desk.setFd]) ?_ ?_ h.nodup
      · intro q hq
        by_contra hh
        have := (h.pair q k hq (by simpa using hh)).1
        rw [hfree] at this
        cases this
      · intro j
        exact ⟨fun hj => ⟨hj, fun he => hnot (he ▸ hj)⟩, fun hj => hj.1⟩

omit [DecidableEq O] in
/-- The pipes and the pool stay, and no parker starts to hold a pipe. -/
theorem Owned.phases {d e : Desk O} (h : Owned d) (hpipe : e.pipe = d.pipe)
    (hpool : e.pool = d.pool) (hfd : e.fd = d.fd)
    (hholds : ∀ p, (e.phase p).holds = true → (d.phase p).holds = true)
    (hbuilt : ∀ p, d.phase p ≠ .unbuilt → e.phase p ≠ .unbuilt) : Owned e := by
  constructor
  case pair =>
    intro p k hk hh
    rw [hfd, hpool]
    exact h.pair p k (hpipe ▸ hk) (hholds p hh)
  case one =>
    intro p q k hpk hph hqk hqh
    exact h.one p q k (hpipe ▸ hpk) (hholds p hph) (hpipe ▸ hqk) (hholds q hqh)
  case pooled => rw [hfd, hpool]; exact h.pooled
  case nodup => rw [hpool]; exact h.nodup
  case built =>
    intro p k hk
    exact hbuilt p (h.built p k (hpipe ▸ hk))

theorem release_owned {d : Desk O} (h : Owned d) {p : O} (hp : d.phase p = .live) :
    Owned (d.setPhase p .released) := by
  refine h.phases rfl rfl rfl (fun q hq => ?_) fun q hq => ?_
  · by_cases hqp : q = p
    · simp [hqp, hp, Phase.holds]
    · simpa [Desk.setPhase, hqp] using hq
  · by_cases hqp : q = p
    · simp [Desk.setPhase, hqp]
    · simpa [Desk.setPhase, hqp] using hq

theorem giveBack_owned {d e : Desk O} (h : Owned d) {p : O} {pooled : Bool}
    (hg : d.giveBack p pooled = some e) : Owned e := by
  simp only [Desk.giveBack] at hg
  split at hg
  case h_2 => cases hg
  case h_1 k hph hk =>
    have hp : (d.phase p).holds = true := by rw [hph]; rfl
    have hother : ∀ q, q ≠ p → d.pipe q = some k → (d.phase q).holds = true → False :=
      fun q hq hqk hqh => hq (h.one q p k hqk hqh hk hp)
    have hphase : ∀ q ph, (fun r => if r = p then ph else d.phase r) q =
        if q = p then ph else d.phase q := fun _ _ => rfl
    split at hg
    case isTrue =>
      split at hg
      case isFalse => cases hg
      case isTrue =>
        cases hg
        have hnot : k ∉ d.pool := (h.pair p k hk hp).2
        constructor
        case pair =>
          intro q j hj hh
          have hq : q ≠ p := fun he => by simp [Desk.setPhase, he, Phase.holds] at hh
          have hh : (d.phase q).holds = true := by simpa [Desk.setPhase, hq] using hh
          obtain ⟨hfd, hm⟩ := h.pair q j hj hh
          refine ⟨hfd, fun hmem => ?_⟩
          rcases List.mem_append.mp hmem with hmem | hmem
          · exact hm hmem
          · rw [List.mem_singleton.mp hmem] at hj
            exact hother q hq hj hh
        case one =>
          intro q r j hqj hqh hrj hrh
          have hq : q ≠ p := fun he => by simp [Desk.setPhase, he, Phase.holds] at hqh
          have hr : r ≠ p := fun he => by simp [Desk.setPhase, he, Phase.holds] at hrh
          exact h.one q r j hqj (by simpa [Desk.setPhase, hq] using hqh) hrj
            (by simpa [Desk.setPhase, hr] using hrh)
        case pooled =>
          intro j hj
          rcases List.mem_append.mp hj with hj | hj
          · exact h.pooled j hj
          · rw [List.mem_singleton.mp hj]
            exact (h.pair p k hk hp).1
        case nodup =>
          exact List.nodup_append.mpr ⟨h.nodup, List.nodup_singleton k, fun a ha b hb he => by
            rw [he, List.mem_singleton.mp hb] at ha
            exact hnot ha⟩
        case built =>
          intro q j hj
          by_cases hq : q = p
          · simp [Desk.setPhase, hq]
          · simpa [Desk.setPhase, hq] using h.built q j hj
    case isFalse =>
      cases hg
      constructor
      case pair =>
        intro q j hj hh
        have hq : q ≠ p := fun he => by simp [Desk.setPhase, he, Phase.holds] at hh
        have hh : (d.phase q).holds = true := by simpa [Desk.setPhase, Desk.setFd, hq] using hh
        have hjk : j ≠ k := fun he => hother q hq (he ▸ hj) hh
        obtain ⟨hfd, hm⟩ := h.pair q j hj hh
        exact ⟨by simpa [Desk.setPhase, Desk.setFd, hjk] using hfd, hm⟩
      case one =>
        intro q r j hqj hqh hrj hrh
        have hq : q ≠ p := fun he => by simp [Desk.setPhase, he, Phase.holds] at hqh
        have hr : r ≠ p := fun he => by simp [Desk.setPhase, he, Phase.holds] at hrh
        exact h.one q r j hqj (by simpa [Desk.setPhase, Desk.setFd, hq] using hqh) hrj
          (by simpa [Desk.setPhase, Desk.setFd, hr] using hrh)
      case pooled =>
        intro j hj
        have hjk : j ≠ k := fun he => (h.pair p k hk hp).2 (he ▸ hj)
        simpa [Desk.setPhase, Desk.setFd, hjk] using h.pooled j hj
      case nodup => exact h.nodup
      case built =>
        intro q j hj
        by_cases hq : q = p
        · simp [Desk.setPhase, hq]
        · simpa [Desk.setPhase, Desk.setFd, hq] using h.built q j hj

omit [DecidableEq O] in
/-- Opens and closes elsewhere in the process touch no pipe of a parker. -/
theorem Owned.elsewhere {d : Desk O} (h : Owned d) {k : ℕ} {f : Fd} (hk : d.fd k ≠ .pair) :
    Owned (d.setFd k f) := by
  have hfd : ∀ j, d.fd j = .pair → (d.setFd k f).fd j = .pair := by
    intro j hj
    have : j ≠ k := fun he => hk (he ▸ hj)
    simpa [Desk.setFd, this] using hj
  constructor
  case pair =>
    intro p j hj hh
    obtain ⟨hp, hm⟩ := h.pair p j hj hh
    exact ⟨hfd j hp, hm⟩
  case one => exact h.one
  case pooled => intro j hj; exact hfd j (h.pooled j hj)
  case nodup => exact h.nodup
  case built => exact h.built

/-! ## Sites over one desk -/

variable {ι : Type} [DecidableEq ι]

/-- The parker `p` of site `i` is `(i, p)`. -/
structure Network (S : ι → Site) where
  site : (i : ι) → (S i).State
  desk : Desk (ι × ℕ)

inductive Action (S : ι → Site)
  | site (i : ι) (a : (S i).Action) (c : Choice)
  | giveBack (p : ι × ℕ) (pooled : Bool)
  /-- some other part of the process opens or closes a descriptor -/
  | openOther (k : ℕ)
  | closeOther (k : ℕ)

/-- The effect of a site's step, with the parker's full name. -/
@[grind =]
def Effect.at {P : Type} (i : ι) : Effect P → Effect (ι × P)
  | .quiet => .quiet
  | .build p fdOnly => .build (i, p) fdOnly
  | .choose ps => .choose (ps.map fun p => (i, p))
  | .write p => .write (i, p)
  | .release p => .release (i, p)

@[grind =]
def step (S : ι → Site) (n : Network S) : Action S → Option (Network S)
  | .site i a c =>
    ((S i).step (n.site i) a).bind fun t =>
      (n.desk.apply c (((S i).effect (n.site i) a).at i)).map fun d =>
        { site := Function.update n.site i t, desk := d }
  | .giveBack p pooled => (n.desk.giveBack p pooled).map fun d => { n with desk := d }
  | .openOther k =>
    if n.desk.fd k = .free then some { n with desk := n.desk.setFd k .other } else none
  | .closeOther k =>
    if n.desk.fd k = .other then some { n with desk := n.desk.setFd k .free } else none

def system (S : ι → Site) : System (Network S) (Action S) where
  init n := n = { site := fun i => (S i).init, desk := Desk.init _ }
  step := step S

/-- The condition on a step, for parkers with a pipe: `release()` does not begin
while a waker is bound to write to the parker, and no waker binds itself to a
parker whose release has begun. -/
def Timely {S : ι → Site} (n : Network S) : Action S → Prop
  | .site i a _ =>
    match (S i).effect (n.site i) a with
    | .release p => n.desk.pipe (i, p) ≠ none → ¬(S i).Writing (n.site i) p
    | .choose ps =>
      ∀ p ∈ ps, n.desk.pipe (i, p) ≠ none → (n.desk.phase (i, p)).over = false
    | _ => True
  | _ => True

noncomputable instance {S : ι → Site} (n : Network S) (a : Action S) : Decidable (Timely n a) :=
  Classical.propDecidable _

/-- The runs all of whose steps are timely. -/
noncomputable def timely (S : ι → Site) : System (Network S) (Action S) :=
  (system S).restrict Timely

theorem build_phase {d e : Desk O} {p : O} {fdOnly : Bool} {c : Choice}
    (hb : d.build p fdOnly c = some e) :
    e.phase = fun q => if q = p then .live else d.phase q := by
  cases c with
  | inmem =>
    simp only [Desk.build] at hb
    split at hb
    · cases hb
    · cases hb
      rfl
  | reuse =>
    simp only [Desk.build] at hb
    split at hb
    · cases hb
      rfl
    · cases hb
  | pipe k =>
    simp only [Desk.build] at hb
    split at hb
    · cases hb
      rfl
    · cases hb

/-- Only a build and a release change the phase of a parker. -/
theorem apply_phase {d e : Desk O} {c : Choice} {f : Effect O} {q : O}
    (ha : d.apply c f = some e) (hb : ∀ fdOnly, f ≠ .build q fdOnly) (hr : f ≠ .release q) :
    e.phase q = d.phase q := by
  cases f with
  | build p fdOnly =>
    have hq : q ≠ p := fun he => hb fdOnly (he ▸ rfl)
    rw [build_phase ha]
    simp [hq]
  | release p =>
    have hq : q ≠ p := fun he => hr (he ▸ rfl)
    cases ha
    simp [Desk.setPhase, hq]
  | quiet | choose p | write p =>
    cases ha
    rfl

/-- Only a build changes the pipe of a parker. -/
theorem apply_pipe {d e : Desk O} {c : Choice} {f : Effect O} {q : O}
    (ha : d.apply c f = some e) (hb : ∀ fdOnly, f ≠ .build q fdOnly) : e.pipe q = d.pipe q := by
  cases f with
  | build p fdOnly =>
    have hq : q ≠ p := fun he => hb fdOnly (he ▸ rfl)
    cases c with
    | inmem | pipe k =>
      simp only [Desk.apply, Desk.build] at ha
      split at ha
      all_goals first
        | cases ha; done
        | (cases ha; simp [Desk.setPipe, Desk.setPhase, Desk.setFd, hq])
    | reuse =>
      simp only [Desk.apply, Desk.build] at ha
      split at ha
      · cases ha
        simp [Desk.setPipe, Desk.setPhase, hq]
      · cases ha
  | quiet | choose p | write p | release p =>
    cases ha
    rfl

theorem apply_owned {d e : Desk O} {c : Choice} {f : Effect O} (h : Owned d)
    (ha : d.apply c f = some e) (hr : ∀ p, f = .release p → d.phase p = .live) : Owned e := by
  cases f with
  | build p fdOnly => exact build_owned h ha
  | release p =>
    cases ha
    exact release_owned h (hr p rfl)
  | quiet | choose p | write p =>
    cases ha
    exact h

variable {S : ι → Site}

/-- A site's step, taken apart. -/
theorem step_site {n m : Network S} {i : ι} {a : (S i).Action} {c : Choice}
    (h : step S n (.site i a c) = some m) :
    ∃ t d, (S i).step (n.site i) a = some t ∧
      n.desk.apply c (((S i).effect (n.site i) a).at i) = some d ∧
      m = { site := update n.site i t, desk := d } := by
  obtain ⟨t, ht, hm⟩ := Option.bind_eq_some_iff.mp h
  obtain ⟨d, hd, rfl⟩ := Option.map_eq_some_iff.mp hm
  exact ⟨t, d, ht, hd, rfl⟩

omit [DecidableEq ι] in
theorem at_build {f : Effect ℕ} {i j : ι} {p : ℕ} {fdOnly : Bool} :
    f.at i = .build (j, p) fdOnly ↔ i = j ∧ f = .build p fdOnly := by
  cases f <;> simp [Effect.at, and_assoc]

omit [DecidableEq ι] in
theorem at_release {f : Effect ℕ} {i j : ι} {p : ℕ} :
    f.at i = .release (j, p) ↔ i = j ∧ f = .release p := by
  cases f <;> simp [Effect.at]

/-- The desk agrees with what the sites know of their parkers. -/
structure Lifecycle (n : Network S) : Prop where
  inv : ∀ i, (S i).Inv (n.site i)
  owned : Owned n.desk
  before : ∀ i p, (S i).stage (n.site i) p = .before → n.desk.phase (i, p) = .unbuilt
  during : ∀ i p, (S i).stage (n.site i) p = .during → n.desk.phase (i, p) = .live

theorem site_lifecycle {n m : Network S} {i : ι} {a : (S i).Action} {c : Choice}
    (h : Lifecycle n) (hs : step S n (.site i a c) = some m) : Lifecycle m := by
  obtain ⟨t, d, ht, hd, rfl⟩ := step_site hs
  -- the parkers of the other sites keep their phase
  have hfar : ∀ j p, j ≠ i → d.phase (j, p) = n.desk.phase (j, p) := by
    intro j p hj
    refine apply_phase hd (fun fdOnly he => ?_) fun he => ?_
    · exact hj (at_build.mp he).1.symm
    · exact hj (at_release.mp he).1.symm
  -- and of this site those that the step neither builds nor releases
  have hnear : ∀ p, (∀ fdOnly, (S i).effect (n.site i) a ≠ .build p fdOnly) →
      (S i).effect (n.site i) a ≠ .release p → d.phase (i, p) = n.desk.phase (i, p) :=
    fun p hb hr => apply_phase hd (fun fdOnly he => hb fdOnly (at_build.mp he).2)
      fun he => hr (at_release.mp he).2
  have hmove := (S i).stage_step (h.inv i) ht
  constructor
  case inv =>
    intro j
    by_cases hj : j = i
    · subst hj
      simpa using (S j).inv_step (h.inv j) ht
    · simpa [update_of_ne hj] using h.inv j
  case owned =>
    refine apply_owned h.owned hd fun p hp => ?_
    obtain ⟨j, q⟩ := p
    obtain ⟨rfl, hq⟩ := at_release.mp hp
    rcases hmove q with ⟨⟨fdOnly, hb⟩, -⟩ | ⟨-, hx, -⟩ | ⟨-, hr, -⟩
    · rw [hq] at hb
      cases hb
    · exact h.during i q hx
    · exact absurd hq hr
  case before =>
    intro j p hb
    by_cases hj : j = i
    · subst hj
      simp only [update_self] at hb
      rcases hmove p with ⟨-, -, hy⟩ | ⟨-, -, hy⟩ | ⟨hnb, hnr, hx⟩
      · rw [hb] at hy
        cases hy
      · rw [hb] at hy
        cases hy
      · rw [hb] at hx
        have hx : (S j).stage (n.site j) p = .before := hx.elim id fun hx => hx.1
        exact (hnear p hnb hnr).trans (h.before j p hx)
    · simp only [update_of_ne hj] at hb
      exact (hfar j p hj).trans (h.before j p hb)
  case during =>
    intro j p hdur
    by_cases hj : j = i
    · subst hj
      simp only [update_self] at hdur
      rcases hmove p with ⟨⟨fdOnly, hb⟩, -⟩ | ⟨-, -, hy⟩ | ⟨hnb, hnr, hx⟩
      · rw [hb] at hd
        rw [build_phase hd]
        simp
      · rw [hdur] at hy
        cases hy
      · rw [hdur] at hx
        have hx : (S j).stage (n.site j) p = .during := hx.elim id fun hx => by cases hx.2
        exact (hnear p hnb hnr).trans (h.during j p hx)
    · simp only [update_of_ne hj] at hdur
      exact (hfar j p hj).trans (h.during j p hdur)

/-- The pipe that `release()` pools or closes is the parker's own. -/
theorem giveBack_cases {d e : Desk O} {p : O} {pooled : Bool}
    (hg : d.giveBack p pooled = some e) :
    ∃ k, d.phase p = .released ∧ d.pipe p = some k ∧
      e.phase = (fun q => if q = p then .givenBack else d.phase q) ∧
      ∀ j ∈ e.pool, j ∈ d.pool ∨ j = k := by
  simp only [Desk.giveBack] at hg
  split at hg
  case h_2 => cases hg
  case h_1 k hph hk =>
    refine ⟨k, hph, hk, ?_⟩
    split at hg
    case isTrue =>
      split at hg
      case isFalse => cases hg
      case isTrue =>
        cases hg
        exact ⟨rfl, fun j hj => by simpa [Desk.setPhase] using hj⟩
    case isFalse =>
      cases hg
      exact ⟨rfl, fun j hj => .inl hj⟩

theorem giveBack_phase {d e : Desk O} {p q : O} {pooled : Bool}
    (hg : d.giveBack p pooled = some e) :
    e.phase q = d.phase q ∨ d.phase q = .released ∧ e.phase q = .givenBack := by
  obtain ⟨k, hr, -, hphase, -⟩ := giveBack_cases hg
  by_cases hq : q = p
  · exact .inr ⟨hq ▸ hr, by simp [hphase, hq]⟩
  · exact .inl (by simp [hphase, hq])

theorem giveBack_pipe {d e : Desk O} {p : O} {pooled : Bool}
    (hg : d.giveBack p pooled = some e) : e.pipe = d.pipe := by
  simp only [Desk.giveBack] at hg
  repeat' split at hg
  all_goals first
    | cases hg; done
    | (cases hg; rfl)

theorem step_lifecycle {n m : Network S} {a : Action S} (h : Lifecycle n)
    (hs : step S n a = some m) : Lifecycle m := by
  cases a with
  | site i a c => exact site_lifecycle h hs
  | giveBack p pooled =>
    obtain ⟨d, hd, rfl⟩ := Option.map_eq_some_iff.mp hs
    refine ⟨h.inv, giveBack_owned h.owned hd, fun i q hq => ?_, fun i q hq => ?_⟩
    · have hun := h.before i q hq
      rcases giveBack_phase (q := (i, q)) hd with he | ⟨hr, -⟩
      · exact he.trans hun
      · rw [hun] at hr
        cases hr
    · have hlive := h.during i q hq
      rcases giveBack_phase (q := (i, q)) hd with he | ⟨hr, -⟩
      · exact he.trans hlive
      · rw [hlive] at hr
        cases hr
  | openOther k =>
    simp only [step] at hs
    split at hs
    case isTrue hk =>
      cases hs
      exact ⟨h.inv, h.owned.elsewhere (by simp [hk]), h.before, h.during⟩
    case isFalse => cases hs
  | closeOther k =>
    simp only [step] at hs
    split at hs
    case isTrue hk =>
      cases hs
      exact ⟨h.inv, h.owned.elsewhere (by simp [hk]), h.before, h.during⟩
    case isFalse => cases hs

theorem reachable_lifecycle {n : Network S} (h : Reachable (system S) n) : Lifecycle n := by
  induction h with
  | start hs =>
    cases hs
    refine ⟨fun i => (S i).inv_init, init_owned, fun _ _ _ => rfl, fun i p hp => ?_⟩
    rw [(S i).stage_init p] at hp
    cases hp
  | next _ hs ih => exact step_lifecycle ih hs

/-- The steps of a run that are all timely. -/
def TimelyRun (n : Network S) : List (Action S) → Prop
  | [] => True
  | a :: as => Timely n a ∧ match step S n a with
    | some m => TimelyRun m as
    | none => True

theorem timely_of_run {n m : Network S} (as : List (Action S)) (h : Reachable (timely S) n)
    (ht : TimelyRun n as) (hr : (system S).run n as = some m) : Reachable (timely S) m := by
  induction as generalizing n with
  | nil =>
    cases hr
    exact h
  | cons a as ih =>
    obtain ⟨u, hu, hrest⟩ := Option.bind_eq_some_iff.mp hr
    obtain ⟨hok, hnext⟩ := ht
    have hu' : step S n a = some u := hu
    rw [hu'] at hnext
    exact ih (h.next (System.restrict_step.mpr ⟨hok, hu⟩)) hnext hrest

/-! ## Writes and releases -/

/-- A released parker has no waker left that would write to its pipe. -/
def Settled (n : Network S) : Prop :=
  ∀ i p, n.desk.pipe (i, p) ≠ none → (n.desk.phase (i, p)).over = true →
    ¬(S i).Writing (n.site i) p

theorem site_settled {n m : Network S} {i : ι} {a : (S i).Action} {c : Choice} (h : Settled n)
    (hok : Timely n (.site i a c)) (hs : step S n (.site i a c) = some m) : Settled m := by
  obtain ⟨t, d, ht, hd, rfl⟩ := step_site hs
  intro j p hpipe hover hw
  by_cases hj : j = i
  · subst hj
    simp only [update_self] at hw
    simp only at hover
    by_cases hrel : (S j).effect (n.site j) a = .release p
    · -- the release itself: no waker is bound to the parker before it, nor after it
      simp only [Timely, hrel] at hok
      have hold : d.pipe (j, p) = n.desk.pipe (j, p) :=
        apply_pipe hd fun fdOnly he => by simp [hrel, Effect.at] at he
      rcases (S j).writing_step ht hw with hwas | ⟨ps, hch, -⟩
      · exact hok (hold ▸ hpipe) hwas
      · rw [hrel] at hch
        cases hch
    · by_cases hbuild : ∃ fdOnly, (S j).effect (n.site j) a = .build p fdOnly
      · obtain ⟨fdOnly, hb⟩ := hbuild
        rw [hb] at hd
        rw [build_phase hd] at hover
        simp [Phase.over] at hover
      · have hsame : d.phase (j, p) = n.desk.phase (j, p) :=
          apply_phase hd (fun fdOnly he => hbuild ⟨fdOnly, (at_build.mp he).2⟩)
            fun he => hrel (at_release.mp he).2
        have hold : d.pipe (j, p) = n.desk.pipe (j, p) :=
          apply_pipe hd fun fdOnly he => hbuild ⟨fdOnly, (at_build.mp he).2⟩
        have hpipe : n.desk.pipe (j, p) ≠ none := hold ▸ hpipe
        rw [hsame] at hover
        rcases (S j).writing_step ht hw with hwas | ⟨ps, hch, hmem⟩
        · exact h j p hpipe hover hwas
        · simp only [Timely, hch] at hok
          rw [hok p hmem hpipe] at hover
          cases hover
  · simp only [update_of_ne hj] at hw
    have hsame : d.phase (j, p) = n.desk.phase (j, p) :=
      apply_phase hd (fun fdOnly he => hj (at_build.mp he).1.symm)
        fun he => hj (at_release.mp he).1.symm
    have hold : d.pipe (j, p) = n.desk.pipe (j, p) :=
      apply_pipe hd fun fdOnly he => hj (at_build.mp he).1.symm
    exact h j p (hold ▸ hpipe) (hsame ▸ hover) hw

theorem step_settled {n m : Network S} {a : Action S} (h : Settled n) (hok : Timely n a)
    (hs : step S n a = some m) : Settled m := by
  cases a with
  | site i a c => exact site_settled h hok hs
  | giveBack p pooled =>
    obtain ⟨d, hd, rfl⟩ := Option.map_eq_some_iff.mp hs
    intro i q hpipe hover
    refine h i q (giveBack_pipe hd ▸ hpipe) ?_
    rcases giveBack_phase (q := (i, q)) hd with he | ⟨hr, -⟩
    · exact he ▸ hover
    · rw [hr]
      rfl
  | openOther k | closeOther k =>
    simp only [step] at hs
    split at hs
    case isTrue =>
      cases hs
      exact h
    case isFalse => cases hs

theorem timely_settled {n : Network S} (h : Reachable (timely S) n) : Settled n := by
  induction h with
  | start hs =>
    cases hs
    intro i p hpipe
    exact absurd rfl hpipe
  | next _ hs ih =>
    obtain ⟨hok, hs⟩ := System.restrict_step.mp hs
    exact step_settled ih hok hs

/-- The byte of `p` goes to a pipe that is `p`'s: its release has not begun, the
descriptor is open, not pooled, and no other parker holds it. -/
def WritesOwnPipe (d : Desk O) (p : O) : Prop :=
  ∀ k, d.pipe p = some k → (d.phase p).over = false ∧
    d.fd k = .pair ∧ k ∉ d.pool ∧ ∀ q, d.pipe q = some k → (d.phase q).holds = true → q = p

theorem timely_writesOwnPipe {n m : Network S} (h : Reachable (timely S) n) {i : ι}
    {a : (S i).Action} {c : Choice} (hs : step S n (.site i a c) = some m) {p : ℕ}
    (hw : (S i).effect (n.site i) a = .write p) : WritesOwnPipe n.desk (i, p) := by
  obtain ⟨t, d, ht, -, -⟩ := step_site hs
  have hwriting := (S i).writing_write ht hw
  have hlife := reachable_lifecycle h.of_restrict
  intro k hk
  have hover : (n.desk.phase (i, p)).over = false := by
    cases hover : (n.desk.phase (i, p)).over with
    | false => rfl
    | true => exact absurd hwriting (timely_settled h i p (by simp [hk]) hover)
  have hholds : (n.desk.phase (i, p)).holds = true := by
    have hb := hlife.owned.built (i, p) k hk
    cases hph : n.desk.phase (i, p) with
    | unbuilt => exact absurd hph hb
    | live | released => rfl
    | givenBack =>
      rw [hph] at hover
      cases hover
  obtain ⟨hfd, hpool⟩ := hlife.owned.pair (i, p) k hk hholds
  exact ⟨hover, hfd, hpool, fun q hq hqh => hlife.owned.one q (i, p) k hq hqh hk hholds⟩

end Stackweave.Monkey.Parker
