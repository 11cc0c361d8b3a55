import Stackweave.IoUring.Multishot

/-!
# The life of a multishot handle

One drain at a time is inside the walk of the completion queue, so the completions
are processed in order. The references of the handle are those of the calls in
`ms_recv`, of the close, and the live one; the live one is dropped by the drain of the
terminal completion when the handle is closing, and else by the close. Who drops the last
one frees the handle. Over whole runs: the bytes copied out are those posted, in order,
every buffer comes back once, nobody is left asleep beside data, and the handle
is freed once and never used after it.
-/

namespace Stackweave.IoUring.Multishot

open Transition Function

variable {α : Type}

/-! ## One drain at a time -/

/-- The drain has the flag. -/
def Drain.inside : Drain → Bool
  | .walk | .process _ | .node _ _ | .wake _ _ _ | .put | .free | .clear => true
  | _ => false

/-- The completion in hand. -/
def Drain.taken : Drain → List Cqe
  | .process c => [c]
  | _ => []

structure Region (s : State α) (w : Option ℕ) : Prop where
  inside : ∀ d, (s.drain d).inside = true ↔ w = some d
  flag : s.draining = true ↔ w ≠ none

/-- The completions that are posted and not processed. -/
def pend (s : State α) (w : Option ℕ) : List Cqe :=
  (w.map fun d => (s.drain d).taken).getD [] ++ s.cq

theorem Drain.outside {q : Drain} (h : q.inside = false) :
    q.link = none ∧ q.wakes = none ∧ q.taken = [] := by
  cases q <;> first | exact ⟨rfl, rfl, rfl⟩ | cases h

theorem Region.sole {s : State α} {d : ℕ} (h : Region s (some d)) : Sole s d := by
  intro e hed
  have hout : (s.drain e).inside = false := by
    rw [← Bool.not_eq_true, h.inside e]
    intro he
    exact hed (Option.some.inj he).symm
  exact ⟨(Drain.outside hout).1, (Drain.outside hout).2.1⟩

/-- A drain goes on, inside or outside. -/
theorem Region.act {s t : State α} {w : Option ℕ} (h : Region s w) {d : ℕ} {q : Drain}
    (hdrain : t.drain = update s.drain d q) (hflag : t.draining = s.draining)
    (hq : q.inside = (s.drain d).inside) : Region t w := by
  constructor
  · intro e
    rw [hdrain]
    by_cases hed : e = d
    · rw [hed, update_self, hq]
      exact h.inside d
    · rw [update_of_ne hed]
      exact h.inside e
  · rw [hflag]
    exact h.flag

/-- A drain takes the flag. -/
theorem Region.enter {s t : State α} {w : Option ℕ} (h : Region s w) {d : ℕ} {q : Drain}
    (hdrain : t.drain = update s.drain d q) (hfree : s.draining = false)
    (hflag : t.draining = true) (hq : q.inside = true) : w = none ∧ Region t (some d) := by
  have hw : w = none := by
    by_contra hne
    rw [h.flag.mpr hne] at hfree
    cases hfree
  refine ⟨hw, fun e => ?_, by simp [hflag]⟩
  rw [hdrain]
  by_cases hed : e = d
  · rw [hed, update_self]
    exact iff_of_true hq rfl
  · rw [update_of_ne hed, h.inside e, hw]
    exact iff_of_false (by rintro ⟨⟩) fun he => hed (Option.some.inj he).symm

/-- A drain lets go of the flag. -/
theorem Region.leave {s t : State α} {d : ℕ} (h : Region s (some d)) {q : Drain}
    (hdrain : t.drain = update s.drain d q) (hflag : t.draining = false)
    (hq : q.inside = false) : Region t none := by
  refine ⟨fun e => ?_, by simp [hflag]⟩
  rw [hdrain]
  by_cases hed : e = d
  · rw [hed, update_self, hq]
    simp
  · rw [update_of_ne hed, h.inside e]
    exact iff_of_false (fun he => hed (Option.some.inj he).symm) (by rintro ⟨⟩)

/-! ## The multishot in the kernel -/

/-- The handle is armed while the kernel has the multishot or the terminal completion
is pending; it is the last one then. -/
structure Fed (armed sqe : Bool) (p : List Cqe) : Prop where
  running : armed = true → (sqe = true ∧ ∀ c ∈ p, c.more = true) ∨
    (sqe = false ∧ ∃ l c, p = l ++ [c] ∧ c.more = false ∧ ∀ x ∈ l, x.more = true)
  ended : armed = false → sqe = false ∧ p = []

theorem Fed.armed_of_pending {armed sqe : Bool} {p : List Cqe} (h : Fed armed sqe p)
    (hp : p ≠ []) : armed = true := by
  cases armed with
  | true => rfl
  | false => exact absurd (h.ended rfl).2 hp

theorem Fed.armed_of_sqe {armed : Bool} {p : List Cqe} (h : Fed armed true p) :
    armed = true := by
  cases armed with
  | true => rfl
  | false => exact absurd (h.ended rfl).1 (by rintro ⟨⟩)

theorem Fed.post {armed : Bool} {p : List Cqe} (h : Fed armed true p) (c : Cqe) :
    Fed armed c.more (p ++ [c]) := by
  have harm := h.armed_of_sqe
  refine ⟨fun _ => ?_, fun hf => absurd (hf.symm.trans harm) (by rintro ⟨⟩)⟩
  rcases h.running harm with ⟨-, hall⟩ | ⟨hf, -⟩
  · cases hm : c.more with
    | true =>
      refine .inl ⟨rfl, fun x hx => ?_⟩
      rcases List.mem_append.mp hx with hx | hx
      · exact hall x hx
      · rw [List.mem_singleton.mp hx, hm]
    | false => exact .inr ⟨rfl, p, c, rfl, hm, hall⟩
  · cases hf

/-- The first pending completion is processed. -/
theorem Fed.process {armed sqe : Bool} {c : Cqe} {p : List Cqe} (h : Fed armed sqe (c :: p)) :
    Fed (armed && c.more) sqe p := by
  have harm : armed = true := h.armed_of_pending (by rintro ⟨⟩)
  rw [harm, Bool.true_and]
  rcases h.running harm with ⟨hs, hall⟩ | ⟨hs, l, x, hl, hx, hall⟩
  · rw [hall c List.mem_cons_self]
    exact ⟨fun _ => .inl ⟨hs, fun y hy => hall y (List.mem_cons_of_mem _ hy)⟩, by rintro ⟨⟩⟩
  · cases l with
    | nil =>
      cases hl
      rw [hx]
      exact ⟨by rintro ⟨⟩, fun _ => ⟨hs, rfl⟩⟩
    | cons y l =>
      cases hl
      rw [hall c List.mem_cons_self]
      exact ⟨fun _ => .inr ⟨hs, l, x, rfl, hx, fun z hz => hall z (List.mem_cons_of_mem _ hz)⟩, by rintro ⟨⟩⟩

theorem Fed.arm {sqe : Bool} {p : List Cqe} (h : Fed false sqe p) : Fed true true p := by
  rw [(h.ended rfl).2]
  exact ⟨fun _ => .inl ⟨rfl, by rintro _ ⟨⟩⟩, by rintro ⟨⟩⟩

/-! ## The references -/

/-- The references of the close. -/
@[grind =]
def Closer.refs : Closer → ℕ
  | .cancel | .putLast | .putBoth => 1
  | _ => 0

/-- The close is to drop the live reference. -/
def Closer.drops : Closer → Bool
  | .putBoth | .putLive | .free true => true
  | _ => false

/-- The drain is to drop the live reference. -/
def Drain.last : Drain → Bool
  | .node _ last | .wake _ _ last => last
  | .put => true
  | _ => false

theorem Drain.inside_of_last {q : Drain} (h : q.last = true) : q.inside = true := by
  cases q <;> first | rfl | cases h

theorem Region.last {s : State α} {d : ℕ} (h : Region s (some d)) {e : ℕ} (hed : e ≠ d) :
    (s.drain e).last = false := by
  rw [← Bool.not_eq_true]
  intro hl
  exact hed (Option.some.inj ((h.inside e).mp (Drain.inside_of_last hl))).symm

/-- The references: of the calls `l`, of the close, and the live one. -/
structure Refs (s : State α) (l : List ℕ) (live : Bool) : Prop where
  nodup : l.Nodup
  calls : ∀ f, f ∈ l ↔ (s.pc f).pinned = true
  count : s.h.refcount = l.length + s.closer.refs + live.toNat
  opened : s.h.closing = false ↔ s.closer = .idle
  held : s.h.closing = false ∨ s.h.armed = true → live = true
  drops : s.closer.drops = true →
    live = true ∧ s.h.armed = false ∧ ∀ d, (s.drain d).last = false
  last : ∀ d, (s.drain d).last = true →
    live = true ∧ s.h.armed = false ∧ s.h.closing = true
  owed : live = true → s.h.closing = true → s.h.armed = false →
    s.closer.drops = true ∨ ∃ d, (s.drain d).last = true

/-- A step that leaves the references alone. -/
theorem Refs.frame {s t : State α} {l : List ℕ} {live : Bool} (h : Refs s l live)
    (hcount : t.h.refcount = s.h.refcount) (hclosing : t.h.closing = s.h.closing)
    (harmed : t.h.armed = s.h.armed) (hcloser : t.closer.refs = s.closer.refs)
    (hdrops : t.closer.drops = s.closer.drops) (hidle : t.closer = .idle ↔ s.closer = .idle)
    (hpin : ∀ f, (t.pc f).pinned = (s.pc f).pinned)
    (hlast : ∀ d, (t.drain d).last = (s.drain d).last) : Refs t l live := by
  constructor
  case nodup => exact h.nodup
  case calls => exact fun f => (h.calls f).trans (by rw [hpin])
  case count => rw [hcount, hcloser]; exact h.count
  case opened => rw [hclosing, hidle]; exact h.opened
  case held => rw [hclosing, harmed]; exact h.held
  case drops => simp only [hdrops, harmed, hlast]; exact h.drops
  case last => simp only [hlast, harmed, hclosing]; exact h.last
  case owed => simp only [hclosing, harmed, hdrops, hlast]; exact h.owed

/-- Who may be at `ms_free`. -/
inductive Who
  | recv (f : ℕ)
  | drain (d : ℕ)
  | close
  deriving DecidableEq

def Pc.frees : Pc → Bool
  | .free _ => true
  | _ => false

def Drain.frees : Drain → Bool
  | .free => true
  | _ => false

def Closer.frees : Closer → Bool
  | .free _ => true
  | _ => false

def State.frees (s : State α) : Who → Bool
  | .recv f => (s.pc f).frees
  | .drain d => (s.drain d).frees
  | .close => s.closer.frees

/-- With references left nobody frees the handle; with none, one is to free it or has. -/
structure Freeing (s : State α) (who : Option Who) : Prop where
  owner : ∀ x, s.frees x = true ↔ who = some x
  stage : (0 < s.h.refcount ∧ who = none ∧ s.freed = 0) ∨
    (s.h.refcount = 0 ∧ who ≠ none ∧ s.freed = 0) ∨
    (s.h.refcount = 0 ∧ who = none ∧ s.freed = 1)

theorem Freeing.alive {s : State α} {who : Option Who} (h : Freeing s who)
    (hpos : 0 < s.h.refcount) : who = none ∧ s.freed = 0 := by
  rcases h.stage with ⟨-, hs⟩ | ⟨h0, -⟩ | ⟨h0, -⟩
  · exact hs
  · omega
  · omega

theorem Freeing.unfreed {s : State α} {who : Option Who} (h : Freeing s who) {x : Who}
    (hx : s.frees x = true) : s.h.refcount = 0 ∧ s.freed = 0 := by
  have hw := (h.owner x).mp hx
  rcases h.stage with ⟨-, hn, -⟩ | ⟨h0, -, hf⟩ | ⟨-, hn, -⟩
  · rw [hw] at hn
    cases hn
  · exact ⟨h0, hf⟩
  · rw [hw] at hn
    cases hn

theorem Freeing.frame {s t : State α} {who : Option Who} (h : Freeing s who)
    (hfrees : ∀ x, t.frees x = s.frees x) (hfreed : t.freed = s.freed)
    (hcount : t.h.refcount = s.h.refcount ∨ (0 < s.h.refcount ∧ 0 < t.h.refcount)) :
    Freeing t who := by
  refine ⟨fun x => by rw [hfrees]; exact h.owner x, ?_⟩
  rw [hfreed]
  rcases hcount with hc | ⟨hs, ht⟩
  · rw [hc]
    exact h.stage
  · exact .inl ⟨ht, h.alive hs⟩

/-- A reference is dropped; who drops the last one is to free the handle. -/
theorem Freeing.drop {s t : State α} {who : Option Who} (h : Freeing s who) {x : Who}
    (hpos : 0 < s.h.refcount) (hcount : t.h.refcount = s.h.refcount - 1)
    (hfreed : t.freed = s.freed) (hx : t.frees x = decide (s.h.refcount = 1))
    (hother : ∀ y, y ≠ x → t.frees y = s.frees y) :
    Freeing t (if s.h.refcount = 1 then some x else none) := by
  obtain ⟨rfl, hf⟩ := h.alive hpos
  have hnone : ∀ y, y ≠ x → t.frees y = false := by
    intro y hy
    rw [hother y hy, ← Bool.not_eq_true, h.owner y]
    rintro ⟨⟩
  split
  case isTrue h1 =>
    refine ⟨fun y => ?_, .inr (.inl ⟨by omega, by rintro ⟨⟩, hfreed.trans hf⟩)⟩
    by_cases hy : y = x
    · rw [hy, hx]
      simp [h1]
    · rw [hnone y hy]
      exact iff_of_false (by rintro ⟨⟩) fun he => hy (Option.some.inj he).symm
  case isFalse h1 =>
    refine ⟨fun y => ?_, .inl ⟨by omega, rfl, hfreed.trans hf⟩⟩
    by_cases hy : y = x
    · rw [hy, hx]
      simp [h1]
    · rw [hnone y hy]
      exact iff_of_false (by rintro ⟨⟩) (by rintro ⟨⟩)

/-- The handle is freed. -/
theorem Freeing.release {s t : State α} {who : Option Who} (h : Freeing s who) {x : Who}
    (hs : s.frees x = true) (ht : t.frees x = false) (hother : ∀ y, y ≠ x → t.frees y = s.frees y)
    (hcount : t.h.refcount = s.h.refcount) (hfreed : t.freed = s.freed + 1) :
    Freeing t none := by
  obtain ⟨h0, hf⟩ := h.unfreed hs
  have hw := (h.owner x).mp hs
  refine ⟨fun y => ?_, .inr (.inr ⟨hcount.trans h0, rfl, by rw [hfreed, hf]⟩)⟩
  refine iff_of_false ?_ (by rintro ⟨⟩)
  by_cases hy : y = x
  · rw [hy, ht]
    rintro ⟨⟩
  · rw [hother y hy, h.owner y, hw]
    exact fun he => hy (Option.some.inj he).symm

theorem frees_goto {s t : State α} {f : ℕ} {q : Pc} (hpc : t.pc = update s.pc f q)
    (hdrain : t.drain = s.drain) (hcloser : t.closer = s.closer) :
    t.frees (.recv f) = q.frees ∧ ∀ x, x ≠ .recv f → t.frees x = s.frees x := by
  constructor
  · rw [State.frees, hpc, update_self]
  · intro x hx
    cases x with
    | recv e =>
      have hef : e ≠ f := fun he => hx (he ▸ rfl)
      rw [State.frees, hpc, update_of_ne hef]
      rfl
    | drain d => rw [State.frees, hdrain]; rfl
    | close => rw [State.frees, hcloser]; rfl

theorem frees_act {s t : State α} {d : ℕ} {q : Drain}
    (hdrain : t.drain = update s.drain d q) (hpc : t.pc = s.pc)
    (hcloser : t.closer = s.closer) :
    t.frees (.drain d) = q.frees ∧ ∀ x, x ≠ .drain d → t.frees x = s.frees x := by
  constructor
  · rw [State.frees, hdrain, update_self]
  · intro x hx
    cases x with
    | recv f => rw [State.frees, hpc]; rfl
    | drain e =>
      have hed : e ≠ d := fun he => hx (he ▸ rfl)
      rw [State.frees, hdrain, update_of_ne hed]
      rfl
    | close => rw [State.frees, hcloser]; rfl

theorem frees_close {s t : State α} (hpc : t.pc = s.pc) (hdrain : t.drain = s.drain) :
    ∀ x, x ≠ .close → t.frees x = s.frees x := by
  intro x hx
  cases x with
  | recv f => rw [State.frees, hpc]; rfl
  | drain d => rw [State.frees, hdrain]; rfl
  | close => exact absurd rfl hx

/-- An actor who is not at `ms_free` before or after a move. -/
theorem frees_same {s t : State α} {x : Who} (hs : s.frees x = false) (ht : t.frees x = false)
    (hother : ∀ y, y ≠ x → t.frees y = s.frees y) : ∀ y, t.frees y = s.frees y := by
  intro y
  by_cases hy : y = x
  · rw [hy, hs, ht]
  · exact hother y hy

/-! ## The invariant -/

/-- The bytes that the call is for. -/
@[grind =]
def Pc.want : Pc → Option ℕ
  | .link n | .park n | .asleep n | .unlink n | .relock n => some n
  | _ => none

/-- The drain that has the flag, the calls with a reference, whether the live reference
is held, and who is at `ms_free`. -/
structure Holders where
  walker : Option ℕ
  calls : List ℕ
  live : Bool
  who : Option Who

structure Inv (s : State α) (g : Holders) : Prop where
  region : Region s g.walker
  stored : Stored s.h.inflight s.h.ready s.pool (pend s g.walker) s.freed
  fed : Fed s.h.armed s.sqe (pend s g.walker)
  nodes : Nodes s
  asks : ∀ f n, (s.pc f).want = some n → 0 < n
  refs : Refs s g.calls g.live
  freeing : Freeing s g.who
  fresh : s.uaf = false
  emptied : s.freed ≠ 0 → s.h.inflight = none ∧ s.h.ready = []

theorem inv_init : Inv (init : State α) ⟨none, [], true, none⟩ where
  region := ⟨fun _ => iff_of_false (by rintro ⟨⟩) (by rintro ⟨⟩), iff_of_false (by rintro ⟨⟩) fun h => h rfl⟩
  stored :=
    { stream := ⟨[], rfl, fun _ => rfl⟩
      perm := .refl _
      nodup := List.nodup_nil
      lent := fun _ => Iff.rfl
      sizes := ⟨by rintro _ ⟨⟩, by rintro _ ⟨⟩⟩
      pending := (by rintro _ _ _ ⟨⟩) }
  fed := ⟨fun _ => .inl ⟨rfl, by rintro _ ⟨⟩⟩, by rintro ⟨⟩⟩
  nodes :=
    { nodup := List.nodup_nil
      onList := fun _ => iff_of_false (by rintro ⟨⟩) (by rintro ⟨⟩)
      chain := trivial
      inCall := by rintro _ ⟨⟩
      quiet := fun h => absurd rfl h
      taken := List.nodup_nil
      chained := trivial
      calls := by rintro _ ⟨⟩
      apart := by rintro _ ⟨⟩
      walking := by rintro _ _ ⟨⟩
      busy := fun h => absurd rfl h
      parked := (by rintro _ ⟨⟩) }
  asks := by rintro _ _ ⟨⟩
  refs :=
    { nodup := List.nodup_nil
      calls := fun _ => iff_of_false (by rintro ⟨⟩) (by rintro ⟨⟩)
      count := rfl
      opened := iff_of_true rfl rfl
      held := fun _ => rfl
      drops := by rintro ⟨⟩
      last := by rintro _ ⟨⟩
      owed := (by rintro _ ⟨⟩) }
  freeing := ⟨fun x => by cases x <;> exact iff_of_false (by rintro ⟨⟩) (by rintro ⟨⟩), .inl ⟨Nat.one_pos, rfl, rfl⟩⟩
  fresh := rfl
  emptied := fun _ => ⟨rfl, rfl⟩

theorem use_eq {s : State α} (h : s.freed = 0) : s.use = s := by
  have hd : decide (0 < s.freed) = false := by simp [h]
  rw [State.use, hd, Bool.or_false]

section Held

variable {s : State α} {g : Holders}

theorem Inv.unfreed_of_live (h : Inv s g) (hl : g.live = true) :
    0 < s.h.refcount ∧ s.freed = 0 := by
  have hpos : 0 < s.h.refcount := by
    rw [h.refs.count, hl]
    exact Nat.succ_pos _
  exact ⟨hpos, (h.freeing.alive hpos).2⟩

theorem Inv.unfreed_of_call (h : Inv s g) {f : ℕ} (hf : (s.pc f).pinned = true) :
    0 < s.h.refcount ∧ s.freed = 0 := by
  have hlen : 0 < g.calls.length := List.length_pos_of_mem ((h.refs.calls f).mpr hf)
  have hpos : 0 < s.h.refcount := by
    rw [h.refs.count]
    omega
  exact ⟨hpos, (h.freeing.alive hpos).2⟩

theorem Inv.unfreed_of_close (h : Inv s g) (hc : s.closer.refs = 1) :
    0 < s.h.refcount ∧ s.freed = 0 := by
  have hpos : 0 < s.h.refcount := by
    rw [h.refs.count]
    omega
  exact ⟨hpos, (h.freeing.alive hpos).2⟩

theorem Inv.unfreed_of_pending (h : Inv s g) (hp : pend s g.walker ≠ []) :
    0 < s.h.refcount ∧ s.freed = 0 :=
  h.unfreed_of_live (h.refs.held (.inr (h.fed.armed_of_pending hp)))

/-- With no reference left the close is over and the kernel has nothing of the handle. -/
theorem Inv.over (h : Inv s g) (h0 : s.h.refcount = 0) :
    g.calls = [] ∧ g.live = false ∧ s.closer.refs = 0 ∧ s.h.closing = true ∧
      s.h.armed = false ∧ s.sqe = false ∧ pend s g.walker = [] := by
  have hcount := h.refs.count
  have hlive : g.live = false := by
    cases hl : g.live with
    | false => rfl
    | true =>
      rw [hl] at hcount
      simp at hcount
      omega
  have hcalls : g.calls = [] := List.length_eq_zero_iff.mp (by omega)
  have hnot : ¬ (s.h.closing = false ∨ s.h.armed = true) := fun hh => by
    rw [h.refs.held hh] at hlive
    cases hlive
  rw [not_or, Bool.not_eq_false, Bool.not_eq_true] at hnot
  exact ⟨hcalls, hlive, by omega, hnot.1, hnot.2, h.fed.ended hnot.2⟩

end Held

/-! ## The calls -/

theorem update_attr {β γ : Type} (a : γ → β) {pc : ℕ → γ} {f : ℕ} {q : γ}
    (h : a q = a (pc f)) (x : ℕ) : a (update pc f q x) = a (pc x) := by
  by_cases hx : x = f
  · rw [hx, update_self, h]
  · rw [update_of_ne hx]

theorem done_shape (s : State α) (f : ℕ) (r : ℤ) : ∃ waiters nxt onList, s.done f r =
    { s with
      h := { s.h with waiters := waiters, refcount := s.h.refcount - 1 }
      nxt := nxt
      onList := onList
      pc := update s.pc f (if s.h.refcount = 1 then .free r else .returned r) } := by
  unfold State.done
  split
  · exact ⟨_, _, _, rfl⟩
  · exact ⟨_, _, _, rfl⟩

theorem sleep_shape (s : State α) (f n : ℕ) : ∃ waiters nxt onList, s.sleep f n =
    { s with
      h := { s.h with waiters := waiters }
      nxt := nxt
      onList := onList
      pc := update s.pc f (.link n) } := by
  unfold State.sleep
  split
  · exact ⟨_, _, _, rfl⟩
  · exact ⟨_, _, _, rfl⟩

section Calls

variable {s : State α} {g : Holders}

/-- The fibers move, and are woken or signaled, with the lock free. -/
theorem Inv.move (h : Inv s g) {pc : ℕ → Pc} {signaled woken : ℕ → Bool}
    (hpin : ∀ x, (pc x).pinned = (s.pc x).pinned) (hwant : ∀ x, (pc x).want = (s.pc x).want)
    (hfrees : ∀ x, (pc x).frees = (s.pc x).frees)
    (hparked : ∀ x, (pc x).waits = true →
      (s.pc x).waits = true ∧ (s.woken x = true → woken x = true)) :
    Inv { s with pc := pc, signaled := signaled, woken := woken } g where
  region := ⟨h.region.inside, h.region.flag⟩
  stored := h.stored
  fed := h.fed
  nodes := h.nodes.frame rfl h.nodes.quiet rfl rfl rfl (fun x hx => (hpin x).trans hx)
    (fun _ => rfl) (fun _ => rfl) hparked
  asks := fun x n hx => h.asks x n ((hwant x).symm.trans hx)
  refs := h.refs.frame rfl rfl rfl rfl rfl Iff.rfl hpin fun _ => rfl
  freeing := by
    refine h.freeing.frame (fun x => ?_) rfl (.inl rfl)
    cases x with
    | recv f => exact hfrees f
    | drain d => rfl
    | close => rfl
  fresh := h.fresh
  emptied := h.emptied

/-- A call moves on. -/
theorem Inv.goto (h : Inv s g) {f : ℕ} {q : Pc} {signaled : ℕ → Bool}
    (hpin : q.pinned = (s.pc f).pinned) (hwant : q.want = (s.pc f).want)
    (hfrees : q.frees = (s.pc f).frees) (hwaits : q.waits = true → (s.pc f).waits = true) :
    Inv { s with pc := update s.pc f q, signaled := signaled } g := by
  refine h.move (update_attr Pc.pinned hpin) (update_attr Pc.want hwant)
    (update_attr Pc.frees hfrees) fun x hx => ⟨?_, id⟩
  by_cases hxf : x = f
  · rw [hxf, update_self] at hx
    rw [hxf]
    exact hwaits hx
  · rw [update_of_ne hxf] at hx
    exact hx

theorem rests_not_pinned {q : Pc} (h : q.rests = true) :
    q.pinned = false ∧ q.frees = false := by
  cases q <;> first | exact ⟨rfl, rfl⟩ | cases h

theorem Refs.pin {l : List ℕ} {live : Bool} (h : Refs s l live) {f n : ℕ}
    (hf : (s.pc f).rests = true) : Refs (s.pin f n) (f :: l) live := by
  have hnot : f ∉ l := by
    rw [h.calls f, (rests_not_pinned hf).1]
    rintro ⟨⟩
  constructor
  case nodup => exact List.nodup_cons.mpr ⟨hnot, h.nodup⟩
  case calls =>
    intro x
    by_cases hxf : x = f
    · rw [hxf]
      simp [State.pin, Pc.pinned]
    · simp only [State.pin, update_of_ne hxf, List.mem_cons, hxf, false_or]
      exact h.calls x
  case count =>
    have hcount := h.count
    simp only [State.pin, List.length_cons]
    omega
  case opened => exact h.opened
  case held => exact h.held
  case drops => exact h.drops
  case last => exact h.last
  case owed => exact h.owed

/-- The start of a call. -/
theorem Inv.pin (h : Inv s g) {f n : ℕ} (hf : (s.pc f).rests = true) (hl : g.live = true)
    (hn : 0 < n) : Inv (s.pin f n) { g with calls := f :: g.calls } where
  region := ⟨h.region.inside, h.region.flag⟩
  stored := h.stored
  fed := h.fed
  nodes := h.nodes.pin hf
  asks := by
    intro x k hx
    by_cases hxf : x = f
    · simp only [State.pin, hxf, update_self, Pc.want, Option.some.injEq] at hx
      exact hx ▸ hn
    · simp only [State.pin, update_of_ne hxf] at hx
      exact h.asks x k hx
  refs := h.refs.pin hf
  freeing := by
    obtain ⟨hself, hother⟩ := frees_goto (s := s) (t := s.pin f n) (f := f) (q := .relock n)
      rfl rfl rfl
    have hfrees := frees_same (s := s) (x := .recv f) (rests_not_pinned hf).2 hself hother
    exact h.freeing.frame hfrees rfl (.inr ⟨(h.unfreed_of_live hl).1, Nat.succ_pos _⟩)
  fresh := h.fresh
  emptied := h.emptied

/-- A locked copy. -/
theorem Inv.copyOut (h : Inv s g) (hfreed : s.freed = 0) (n : ℕ) :
    Inv (s.copyOut (fetch s.pool.mem n s.h.inflight s.h.ready)) g where
  region := ⟨h.region.inside, h.region.flag⟩
  stored := by
    have hs := h.stored
    rw [hfreed] at hs
    have ht := hs.copyOut (@fetch_splits α _ n _ _ hs.sizes)
    rw [← hfreed] at ht
    exact ht
  fed := h.fed
  nodes := h.nodes.copyOut n
  asks := h.asks
  refs := h.refs.frame rfl rfl rfl rfl rfl Iff.rfl (fun _ => rfl) fun _ => rfl
  freeing := h.freeing.frame (fun x => by cases x <;> rfl) rfl (.inl rfl)
  fresh := h.fresh
  emptied := fun hne => absurd hfreed hne

/-- The multishot is submitted again. -/
theorem Inv.arm (h : Inv s g) (ha : s.h.armed = false) (hc : s.h.closing = false) :
    Inv s.arm g where
  region := ⟨h.region.inside, h.region.flag⟩
  stored := h.stored
  fed := by
    have hf := h.fed
    rw [ha] at hf
    exact hf.arm
  nodes := h.nodes.frame rfl h.nodes.quiet rfl rfl rfl (fun _ hp => hp) (fun _ => rfl)
    (fun _ => rfl) fun _ hx => ⟨hx, id⟩
  asks := h.asks
  refs := by
    have hidle := h.refs.opened.mp hc
    have hopen : ∀ {b : Bool}, s.h.closing = b → b = true → False := by
      intro b hb ht
      rw [ht, hc] at hb
      cases hb
    constructor
    case nodup => exact h.refs.nodup
    case calls => exact h.refs.calls
    case count => exact h.refs.count
    case opened => exact h.refs.opened
    case held => exact fun _ => h.refs.held (.inl hc)
    case drops =>
      intro hd
      simp only [State.arm, hidle, Closer.drops] at hd
      cases hd
    case last => exact fun d hd => (hopen rfl (h.refs.last d hd).2.2).elim
    case owed => exact fun _ ht => (hopen rfl ht).elim
  freeing := h.freeing.frame (fun x => by cases x <;> rfl) rfl (.inl rfl)
  fresh := h.fresh
  emptied := h.emptied

/-- The call goes to its park. -/
theorem Inv.sleep (h : Inv s g) {f n : ℕ} (hf : s.pc f = .relock n) (hd : f ∉ s.detached)
    (hquiet : s.h.inflight = none ∧ s.h.ready = [] ∧ s.h.eof = false ∧ s.h.err = 0) :
    Inv (s.sleep f n) g := by
  have hnodes := h.nodes.sleep (n := n) hd hquiet
  obtain ⟨waiters, nxt, onList, he⟩ := sleep_shape s f n
  rw [he] at hnodes ⊢
  constructor
  case region => exact ⟨h.region.inside, h.region.flag⟩
  case stored => exact h.stored
  case fed => exact h.fed
  case nodes => exact hnodes
  case asks =>
    intro x k hx
    rw [update_attr Pc.want (by rw [hf]; rfl)] at hx
    exact h.asks x k hx
  case refs =>
    exact h.refs.frame rfl rfl rfl rfl rfl Iff.rfl (update_attr Pc.pinned (by rw [hf]; rfl))
      fun _ => rfl
  case freeing =>
    refine h.freeing.frame (fun x => ?_) rfl (.inl rfl)
    cases x with
    | recv e => exact update_attr Pc.frees (by rw [hf]; rfl) e
    | drain d => rfl
    | close => rfl
  case fresh => exact h.fresh
  case emptied => exact h.emptied

theorem Refs.done {l : List ℕ} {live : Bool} (h : Refs s l live) {t : State α} {f : ℕ} {q : Pc}
    (hf : (s.pc f).pinned = true) (hpc : t.pc = update s.pc f q) (hq : q.pinned = false)
    (hcount : t.h.refcount = s.h.refcount - 1) (hclosing : t.h.closing = s.h.closing)
    (harmed : t.h.armed = s.h.armed) (hcloser : t.closer = s.closer) (hdrain : t.drain = s.drain) :
    Refs t (l.erase f) live := by
  have hmem : f ∈ l := (h.calls f).mpr hf
  constructor
  case nodup => exact h.nodup.erase f
  case calls =>
    intro x
    rw [h.nodup.mem_erase_iff, hpc]
    by_cases hxf : x = f
    · rw [hxf, update_self, hq]
      simp
    · rw [update_of_ne hxf, h.calls x]
      simp [hxf]
  case count =>
    have hlen := List.length_pos_of_mem hmem
    rw [hcount, hcloser, h.count, List.length_erase_of_mem hmem]
    omega
  case opened => rw [hclosing, hcloser]; exact h.opened
  case held => rw [hclosing, harmed]; exact h.held
  case drops => rw [hcloser, harmed, hdrain]; exact h.drops
  case last => rw [hdrain, harmed, hclosing]; exact h.last
  case owed => rw [hclosing, harmed, hcloser, hdrain]; exact h.owed

/-- The end of a call. -/
theorem Inv.done (h : Inv s g) {f n : ℕ} {r : ℤ} (hf : s.pc f = .relock n)
    (hd : f ∉ s.detached) : ∃ g', Inv (s.done f r) g' := by
  have hpinned : (s.pc f).pinned = true := by rw [hf]; rfl
  have hnodes := h.nodes.done (r := r) (by rw [hf]; rfl) hd
  obtain ⟨waiters, nxt, onList, he⟩ := done_shape s f r
  rw [he] at hnodes ⊢
  refine ⟨⟨g.walker, g.calls.erase f, g.live, if s.h.refcount = 1 then some (.recv f) else none⟩, ?_⟩
  constructor
  case region => exact ⟨h.region.inside, h.region.flag⟩
  case stored => exact h.stored
  case fed => exact h.fed
  case nodes => exact hnodes
  case asks =>
    intro x k hx
    by_cases hxf : x = f
    · dsimp only at hx
      rw [hxf, update_self] at hx
      split at hx <;> cases hx
    · simp only [update_of_ne hxf] at hx
      exact h.asks x k hx
  case refs =>
    refine h.refs.done hpinned rfl ?_ rfl rfl rfl rfl rfl
    split <;> rfl
  case freeing =>
    obtain ⟨hself, hother⟩ := frees_goto (s := s) (t := { s with
      h := { s.h with waiters := waiters, refcount := s.h.refcount - 1 }
      nxt := nxt
      onList := onList
      pc := update s.pc f (if s.h.refcount = 1 then .free r else .returned r) })
      rfl rfl rfl
    refine h.freeing.drop (h.unfreed_of_call hpinned).1 rfl rfl ?_ hother
    rw [hself]
    split
    case isTrue h1 => simp [Pc.frees, h1]
    case isFalse h1 => simp [Pc.frees, h1]
  case fresh => exact h.fresh
  case emptied => exact h.emptied

/-- The loop of `ms_recv`, from the top to the park or to the end. -/
theorem Inv.serve (h : Inv s g) {f n : ℕ} (hf : s.pc f = .relock n) (hd : f ∉ s.detached) :
    ∃ g', Inv (s.serve f n) g' := by
  have hfreed := (h.unfreed_of_call (f := f) (by rw [hf]; rfl)).2
  have hcopy := h.copyOut hfreed n
  have hfound : (fetch s.pool.mem n s.h.inflight s.h.ready).out = [] →
      (fetch s.pool.mem n s.h.inflight s.h.ready).inflight = none ∧
        (fetch s.pool.mem n s.h.inflight s.h.ready).ready = [] := by
    intro hout
    have hn : 0 < n := h.asks f n (by rw [hf]; rfl)
    obtain ⟨hi, hr⟩ := fetch_out_nil h.stored.sizes hn hout
    rw [hi, hr]
    exact ⟨rfl, rfl⟩
  unfold State.serve
  dsimp only
  split
  · exact hcopy.done hf hd
  split
  · exact hcopy.done hf hd
  split
  · exact hcopy.done hf hd
  split
  · exact hcopy.done hf hd
  -- nothing to copy, no error, no end and no close
  case isFalse hout herr heof hclosing =>
    rw [Bool.not_eq_false, List.isEmpty_iff] at hout
    rw [not_not] at herr
    rw [Bool.not_eq_true] at heof hclosing
    obtain ⟨hi, hr⟩ := hfound hout
    split
    case isTrue => exact ⟨g, hcopy.sleep hf hd ⟨hi, hr, heof, herr⟩⟩
    case isFalse harmed =>
      rw [Bool.not_eq_true] at harmed
      exact ⟨g, (hcopy.arm harmed hclosing).sleep hf hd ⟨hi, hr, heof, herr⟩⟩

/-- `ms_free`, by whom has dropped the last reference. -/
theorem Inv.release (h : Inv s g) {x : Who} (hx : s.frees x = true) {pc : ℕ → Pc}
    {drain : ℕ → Drain} {closer : Closer} (hpin : ∀ f, (pc f).pinned = (s.pc f).pinned)
    (hwant : ∀ f, (pc f).want = (s.pc f).want) (hwaits : ∀ f, (pc f).waits = (s.pc f).waits)
    (hinside : ∀ d, (drain d).inside = (s.drain d).inside)
    (hlink : ∀ d, (drain d).link = (s.drain d).link)
    (hwakes : ∀ d, (drain d).wakes = (s.drain d).wakes)
    (hlast : ∀ d, (drain d).last = (s.drain d).last)
    (htaken : ∀ d, (drain d).taken = (s.drain d).taken)
    (hrefs : closer.refs = s.closer.refs) (hdrops : closer.drops = s.closer.drops)
    (hidle : closer = .idle ↔ s.closer = .idle)
    (hself : State.frees { s.release with pc := pc, drain := drain, closer := closer } x = false)
    (hother : ∀ y, y ≠ x →
      State.frees { s.release with pc := pc, drain := drain, closer := closer } y = s.frees y) :
    ∃ g', Inv { s.release with pc := pc, drain := drain, closer := closer } g' := by
  obtain ⟨h0, hfreed⟩ := h.freeing.unfreed hx
  obtain ⟨-, -, -, -, -, -, hpend⟩ := h.over h0
  have hsame : pend { s.release with pc := pc, drain := drain, closer := closer } g.walker =
      pend s g.walker := by
    simp only [pend, htaken]
    rfl
  refine ⟨{ g with who := none }, ?_⟩
  constructor
  case region => exact ⟨fun d => by rw [← h.region.inside d]; simp only [hinside], h.region.flag⟩
  case stored =>
    have hs := h.stored
    rw [hfreed, hpend] at hs
    rw [hsame, hpend]
    have ht := hs.release
    rw [← Nat.zero_add 1, ← hfreed] at ht
    exact ht
  case fed => rw [hsame]; exact h.fed
  case nodes =>
    refine h.nodes.frame rfl (fun hne => ?_) rfl rfl rfl (fun f hf => (hpin f).trans hf) hlink
      hwakes fun f hf => ⟨(hwaits f).symm.trans hf, id⟩
    obtain ⟨-, -, he⟩ := h.nodes.quiet hne
    exact ⟨rfl, rfl, he⟩
  case asks => exact fun f n hf => h.asks f n ((hwant f).symm.trans hf)
  case refs => exact h.refs.frame rfl rfl rfl hrefs hdrops hidle hpin hlast
  case freeing => exact h.freeing.release hx hself hother rfl rfl
  case fresh => exact h.fresh
  case emptied => exact fun _ => ⟨rfl, rfl⟩

end Calls

/-! ## The drains -/

section Drains

variable {s : State α} {g : Holders} {d : ℕ}

theorem pend_self (h : Inv s g) (hd : (s.drain d).inside = true) :
    g.walker = some d ∧ pend s g.walker = (s.drain d).taken ++ s.cq := by
  have hw := (h.region.inside d).mp hd
  rw [hw]
  exact ⟨rfl, rfl⟩

/-- A drain that is outside, or whose completion is not in question, has nothing in hand. -/
theorem pend_act {s t : State α} {w : Option ℕ} {q : Drain}
    (hdrain : t.drain = update s.drain d q) (hcq : t.cq = s.cq)
    (hq : q.taken = (s.drain d).taken) : pend t w = pend s w := by
  unfold pend
  rw [hdrain, hcq]
  cases w with
  | none => rfl
  | some e =>
    simp only [Option.map_some]
    rw [update_attr Drain.taken hq]

/-- A drain moves on, and the handle stays as it is. -/
theorem Inv.turn (h : Inv s g) {t : State α} {q : Drain} {draining : Bool} {cq : List Cqe}
    {detached : List ℕ} {woken : ℕ → Bool} {w : Option ℕ}
    (ht : t = { s with
      drain := update s.drain d q, draining := draining, cq := cq
      detached := detached, woken := woken })
    (hnodes : Nodes t) (hregion : Region t w) (hpend : pend t w = pend s g.walker)
    (hlast : q.last = (s.drain d).last) (hfrees : q.frees = (s.drain d).frees) :
    Inv t { g with walker := w } := by
  subst ht
  constructor
  case region => exact hregion
  case stored => rw [hpend]; exact h.stored
  case fed => rw [hpend]; exact h.fed
  case nodes => exact hnodes
  case asks => exact h.asks
  case refs =>
    exact h.refs.frame rfl rfl rfl rfl rfl Iff.rfl (fun _ => rfl) (update_attr Drain.last hlast)
  case freeing =>
    refine h.freeing.frame (fun x => ?_) rfl (.inl rfl)
    cases x with
    | recv f => rfl
    | drain e => exact update_attr Drain.frees hfrees e
    | close => rfl
  case fresh => exact h.fresh
  case emptied => exact h.emptied

/-- The nodes, when the drain has none of them in hand. -/
theorem Nodes.turn (h : Nodes s) {q : Drain} {draining : Bool} {cq : List Cqe}
    (hlink : q.link = (s.drain d).link) (hwakes : q.wakes = (s.drain d).wakes) :
    Nodes { s with drain := update s.drain d q, draining := draining, cq := cq } :=
  h.frame rfl h.quiet rfl rfl rfl (fun _ hp => hp) (update_attr Drain.link hlink)
    (update_attr Drain.wakes hwakes) fun _ hx => ⟨hx, id⟩

/-- A drain moves outside of the walk. -/
theorem Inv.outside (h : Inv s g) {q : Drain} (hd : (s.drain d).inside = false)
    (hq : q.inside = false) : Inv (s.act d q) g := by
  obtain ⟨hlink, hwakes, htaken⟩ := Drain.outside hd
  obtain ⟨hlink', hwakes', htaken'⟩ := Drain.outside hq
  have hnone : ∀ {p : Drain}, p.inside = false → p.last = false ∧ p.frees = false := by
    intro p hp
    cases p <;> first | exact ⟨rfl, rfl⟩ | cases hp
  refine h.turn (w := g.walker) rfl ?_ ?_ ?_ ?_ ?_
  · exact h.nodes.turn (hlink'.trans hlink.symm) (hwakes'.trans hwakes.symm)
  · exact h.region.act rfl rfl (hq.trans hd.symm)
  · exact pend_act rfl rfl (htaken'.trans htaken.symm)
  · rw [(hnone hd).1, (hnone hq).1]
  · rw [(hnone hd).2, (hnone hq).2]

/-- A drain takes the flag. -/
theorem Inv.enter (h : Inv s g) (hd : s.drain d = .exchange ∨ s.drain d = .retry)
    (hfree : s.draining = false) : ∃ g', Inv { s.act d .walk with draining := true } g' := by
  have hattr : (s.drain d).link = none ∧ (s.drain d).wakes = none ∧
      (s.drain d).last = false ∧ (s.drain d).frees = false := by
    rcases hd with hd | hd
    · rw [hd]
      exact ⟨rfl, rfl, rfl, rfl⟩
    · rw [hd]
      exact ⟨rfl, rfl, rfl, rfl⟩
  obtain ⟨hlink, hwakes, hlast, hfrees⟩ := hattr
  obtain ⟨hw, hregion⟩ := h.region.enter (t := { s.act d .walk with draining := true })
    (d := d) (q := .walk) rfl hfree rfl rfl
  refine ⟨_, h.turn (d := d) (q := .walk) rfl (h.nodes.turn hlink.symm hwakes.symm) hregion ?_
    hlast.symm hfrees.symm⟩
  rw [hw]
  simp [pend, State.act, Drain.taken]

/-- A drain that is inside, with no node and no completion in hand, moves on inside. -/
theorem Inv.inside (h : Inv s g) {q : Drain} {l : List Cqe} (hd : (s.drain d).inside = true)
    (hq : q.inside = true) (hlink : q.link = (s.drain d).link)
    (hwakes : q.wakes = (s.drain d).wakes) (hlast : q.last = (s.drain d).last)
    (hfrees : q.frees = (s.drain d).frees) (hcq : q.taken ++ l = (s.drain d).taken ++ s.cq) :
    Inv { s.act d q with cq := l } g := by
  obtain ⟨hw, hpend⟩ := pend_self h hd
  refine h.turn (w := g.walker) rfl (h.nodes.turn hlink hwakes)
    (h.region.act rfl rfl (hq.trans hd.symm))
    ?_ hlast hfrees
  rw [hpend, hw, ← hcq]
  simp [pend, State.act]

/-- A drain lets go of the flag. -/
theorem Inv.leave (h : Inv s g) (hd : s.drain d = .clear) :
    ∃ g', Inv { s.act d .recheck with draining := false } g' := by
  obtain ⟨hw, hpend⟩ := pend_self h (d := d) (by rw [hd]; rfl)
  have hregion := h.region
  rw [hw] at hregion
  refine ⟨_, h.turn (d := d) (q := .recheck) rfl (h.nodes.turn (by rw [hd]; rfl) (by rw [hd]; rfl))
    (hregion.leave (q := .recheck) rfl rfl rfl) ?_ (by rw [hd]; rfl) (by rw [hd]; rfl)⟩
  rw [hpend, hd]
  simp [pend, State.act, Drain.taken]

/-- A drain is at the end of its nodes. -/
theorem Inv.finish (h : Inv s g) {last : Bool} (hd : s.drain d = .node none last) :
    Inv (s.act d (if last then .put else .walk)) g := by
  have hin : (s.drain d).inside = true := by rw [hd]; rfl
  obtain ⟨hw, hpend⟩ := pend_self h hin
  have hregion := h.region
  rw [hw] at hregion
  have hattr : ∀ b : Bool, (if b then Drain.put else Drain.walk).inside = true ∧
      (if b then Drain.put else Drain.walk).link = none ∧
      (if b then Drain.put else Drain.walk).last = b ∧
      (if b then Drain.put else Drain.walk).frees = false ∧
      (if b then Drain.put else Drain.walk).taken = [] := by
    intro b
    cases b <;> exact ⟨rfl, rfl, rfl, rfl, rfl⟩
  obtain ⟨hqin, hqlink, hqlast, hqfrees, hqtaken⟩ := hattr last
  refine h.turn (w := g.walker) rfl ?_ (h.region.act rfl rfl (hqin.trans hin.symm)) ?_
    (by rw [hd]; exact hqlast) (by rw [hd]; exact hqfrees)
  · exact h.nodes.act rfl rfl h.nodes.quiet rfl rfl rfl rfl rfl hregion.sole
      (.inr (by rw [hd]; rfl)) (by rw [hd]; rfl) hqlink
  · exact pend_act rfl rfl (by rw [hd]; exact hqtaken)

/-- A drain reads a node. -/
theorem Inv.read (h : Inv s g) {f : ℕ} {last : Bool} (hd : s.drain d = .node (some f) last) :
    Inv { s.act d (.wake f (s.nxt f) last) with detached := s.detached.tail } g := by
  have hin : (s.drain d).inside = true := by rw [hd]; rfl
  have hregion := h.region
  rw [(pend_self h hin).1] at hregion
  exact h.turn (w := g.walker) rfl (h.nodes.read hregion.sole hd)
    (h.region.act rfl rfl (by rw [hd]; rfl)) (pend_act rfl rfl (by rw [hd]; rfl))
    (by rw [hd]; rfl) (by rw [hd]; rfl)

/-- A drain wakes the fiber of the node that it has read. -/
theorem Inv.wake (h : Inv s g) {f : ℕ} {next : Option ℕ} {last : Bool}
    (hd : s.drain d = .wake f next last) :
    Inv { s.act d (.node next last) with woken := update s.woken f true } g := by
  have hin : (s.drain d).inside = true := by rw [hd]; rfl
  have hregion := h.region
  rw [(pend_self h hin).1] at hregion
  exact h.turn (w := g.walker) rfl (h.nodes.wake hregion.sole hd)
    (h.region.act rfl rfl (by rw [hd]; rfl)) (pend_act rfl rfl (by rw [hd]; rfl))
    (by rw [hd]; rfl) (by rw [hd]; rfl)

theorem onCqe_armed (h : Handle) (c : Cqe) : (h.onCqe c).armed = (h.armed && c.more) := by
  cases c <;> rfl

theorem onCqe_closing (h : Handle) (c : Cqe) :
    (h.onCqe c).closing = h.closing ∧ (h.onCqe c).refcount = h.refcount := by
  cases c <;> exact ⟨rfl, rfl⟩

/-- The terminal completion of a closing handle has the drain drop the live reference. -/
theorem Refs.onCqe {l : List ℕ} {live : Bool} (h : Refs s l live) {c : Cqe}
    (harmed : s.h.armed = true) (hother : ∀ e, e ≠ d → (s.drain e).last = false) :
    Refs (s.onCqe d c) l live := by
  obtain ⟨hclosing, hcount⟩ := onCqe_closing s.h c
  have hlive := h.held (.inr harmed)
  have hdrops : s.closer.drops = false := by
    rw [← Bool.not_eq_true]
    intro hd
    rw [(h.drops hd).2.1] at harmed
    cases harmed
  have harmed' : (s.onCqe d c).h.armed = c.more := by
    change (s.h.onCqe c).armed = c.more
    rw [onCqe_armed, harmed, Bool.true_and]
  have hself : ((s.onCqe d c).drain d).last = (s.h.closing && !c.more) := by
    simp [State.onCqe, Drain.last]
  constructor
  case nodup => exact h.nodup
  case calls => exact h.calls
  case count => exact hcount.trans h.count
  case opened =>
    have hsame : (s.h.onCqe c).closing = false ↔ s.h.closing = false := by rw [← hclosing]
    exact hsame.trans h.opened
  case held => exact fun _ => hlive
  case drops => exact fun hd => absurd (hd.symm.trans hdrops) (by rintro ⟨⟩)
  case last =>
    intro e he
    by_cases hed : e = d
    · rw [hed, hself, Bool.and_eq_true, Bool.not_eq_true'] at he
      exact ⟨hlive, harmed'.trans he.2, hclosing.trans he.1⟩
    · simp only [State.onCqe, update_of_ne hed, hother e hed] at he
      cases he
  case owed =>
    intro _ hc ha
    refine .inr ⟨d, ?_⟩
    have hc' : s.h.closing = true := hclosing.symm.trans hc
    rw [hself, hc', ← harmed', ha]
    rfl

/-- The locked part of `ms_on_cqe`. -/
theorem Inv.process (h : Inv s g) {c : Cqe} (hd : s.drain d = .process c) :
    Inv (s.onCqe d c) g := by
  obtain ⟨hw, hpend⟩ := pend_self h (d := d) (by rw [hd]; rfl)
  rw [hd, Drain.taken, List.singleton_append] at hpend
  have hregion := h.region
  rw [hw] at hregion
  have hpend' : pend (s.onCqe d c) g.walker = s.cq := by
    rw [hw]
    simp [pend, State.onCqe, Drain.taken]
  have harmed : s.h.armed = true := h.fed.armed_of_pending (by rw [hpend]; rintro ⟨⟩)
  constructor
  case region => exact h.region.act rfl rfl (by rw [hd]; rfl)
  case stored =>
    have hs := h.stored
    rw [hpend] at hs
    rw [hpend']
    exact hs.onCqe
  case fed =>
    have hf := h.fed
    rw [hpend] at hf
    rw [hpend']
    change Fed (s.h.onCqe c).armed s.sqe s.cq
    rw [onCqe_armed]
    exact hf.process
  case nodes => exact h.nodes.onCqe hregion.sole hd
  case asks => exact h.asks
  case refs => exact h.refs.onCqe harmed fun e he => hregion.last he
  case freeing =>
    obtain ⟨hself, hother⟩ := frees_act (s := s) (t := s.onCqe d c) (d := d)
      (q := .node s.h.waiters.head? (s.h.closing && !c.more)) rfl rfl rfl
    have hfrees := frees_same (x := .drain d) (by rw [State.frees, hd]; rfl) hself hother
    exact h.freeing.frame hfrees rfl (.inl (onCqe_closing s.h c).2)
  case fresh => exact h.fresh
  case emptied => exact fun hne => absurd (h.unfreed_of_pending (by rw [hpend]; rintro ⟨⟩)).2 hne

/-- The live reference is dropped by the drain of the terminal completion. -/
theorem Inv.drainPut (h : Inv s g) (hd : s.drain d = .put) :
    ∃ g', Inv (s.put.act d (if s.h.refcount = 1 then .free else .walk)) g' := by
  have hin : (s.drain d).inside = true := by rw [hd]; rfl
  obtain ⟨hw, hpend⟩ := pend_self h hin
  have hregion := h.region
  rw [hw] at hregion
  obtain ⟨hlive, harmed, hclosing⟩ := h.refs.last d (by rw [hd]; rfl)
  have hpos := (h.unfreed_of_live hlive).1
  have hattr : (if s.h.refcount = 1 then Drain.free else Drain.walk).inside = true ∧
      (if s.h.refcount = 1 then Drain.free else Drain.walk).link = none ∧
      (if s.h.refcount = 1 then Drain.free else Drain.walk).last = false ∧
      (if s.h.refcount = 1 then Drain.free else Drain.walk).taken = [] ∧
      (if s.h.refcount = 1 then Drain.free else Drain.walk).frees = decide (s.h.refcount = 1) := by
    split
    case isTrue h1 => exact ⟨rfl, rfl, rfl, rfl, by simp [Drain.frees, h1]⟩
    case isFalse h1 => exact ⟨rfl, rfl, rfl, rfl, by simp [Drain.frees, h1]⟩
  generalize (if s.h.refcount = 1 then Drain.free else Drain.walk) = q at hattr
  obtain ⟨hqin, hqlink, hqlast, hqtaken, hqfrees⟩ := hattr
  have hsame : pend (s.put.act d q) g.walker = pend s g.walker :=
    pend_act rfl rfl (by rw [hd]; exact hqtaken)
  have hnone : ∀ e, ((s.put.act d q).drain e).last = false := by
    intro e
    by_cases hed : e = d
    · simp only [State.act, hed, update_self, hqlast]
    · simp only [State.act, update_of_ne hed]
      exact hregion.last hed
  refine ⟨⟨g.walker, g.calls, false, if s.h.refcount = 1 then some (.drain d) else none⟩, ?_⟩
  constructor
  case region => exact h.region.act rfl rfl (hqin.trans hin.symm)
  case stored => rw [hsame]; exact h.stored
  case fed => rw [hsame]; exact h.fed
  case nodes =>
    exact h.nodes.act rfl rfl h.nodes.quiet rfl rfl rfl rfl rfl hregion.sole
      (.inl (by rw [hd]; rfl)) (by rw [hd]; rfl) hqlink
  case asks => exact h.asks
  case refs =>
    constructor
    case nodup => exact h.refs.nodup
    case calls => exact h.refs.calls
    case count =>
      have hcount := h.refs.count
      rw [hlive] at hcount
      change s.h.refcount - 1 = g.calls.length + s.closer.refs + 0
      rw [hcount]
      rfl
    case opened => exact h.refs.opened
    case held =>
      rintro (hc | ha)
      · exact absurd (hclosing.symm.trans hc) (by rintro ⟨⟩)
      · exact absurd (harmed.symm.trans ha) (by rintro ⟨⟩)
    case drops =>
      intro hdr
      have hf := (h.refs.drops hdr).2.2 d
      rw [hd] at hf
      cases hf
    case last => exact fun e he => absurd (he.symm.trans (hnone e)) (by rintro ⟨⟩)
    case owed => rintro ⟨⟩
  case freeing =>
    obtain ⟨hself, hother⟩ := frees_act (s := s) (t := s.put.act d q) (d := d) (q := q) rfl rfl rfl
    exact h.freeing.drop hpos rfl rfl (hself.trans hqfrees) hother
  case fresh => exact h.fresh
  case emptied => exact h.emptied

theorem Inv.drainStep (h : Inv s g) {t : State α} (hs : drainStep s d = some t) :
    ∃ g', Inv t g' := by
  unfold Multishot.drainStep at hs
  split at hs
  case h_1 => cases hs
  case h_2 hd =>
    cases hs
    split
    case isTrue => exact ⟨g, h.outside (by rw [hd]; rfl) rfl⟩
    case isFalse hfree => exact h.enter (.inl hd) (Bool.not_eq_true _ ▸ hfree)
  case h_3 hd =>
    cases hs
    split
    case isTrue => exact ⟨g, h.outside (by rw [hd]; rfl) rfl⟩
    case isFalse hfree => exact h.enter (.inr hd) (Bool.not_eq_true _ ▸ hfree)
  case h_4 hd =>
    split at hs
    case h_1 hcq =>
      cases hs
      have ht := h.inside (d := d) (q := .clear) (l := s.cq) (by rw [hd]; rfl) rfl
        (by rw [hd]; rfl) (by rw [hd]; rfl) (by rw [hd]; rfl) (by rw [hd]; rfl) (by rw [hd]; rfl)
      exact ⟨g, ht⟩
    case h_2 c rest hcq =>
      cases hs
      obtain ⟨hw, hpend⟩ := pend_self h (d := d) (by rw [hd]; rfl)
      rw [use_eq (h.unfreed_of_pending (by rw [hpend, hd, hcq]; rintro ⟨⟩)).2]
      exact ⟨g, h.inside (by rw [hd]; rfl) rfl (by rw [hd]; rfl) (by rw [hd]; rfl)
        (by rw [hd]; rfl) (by rw [hd]; rfl) (by rw [hd, hcq]; rfl)⟩
  case h_5 c hd =>
    cases hs
    obtain ⟨hw, hpend⟩ := pend_self h (d := d) (by rw [hd]; rfl)
    rw [use_eq (h.unfreed_of_pending (by rw [hpend, hd]; rintro ⟨⟩)).2]
    exact ⟨g, h.process hd⟩
  case h_6 last hd =>
    cases hs
    exact ⟨g, h.finish hd⟩
  case h_7 f last hd =>
    cases hs
    exact ⟨g, h.read hd⟩
  case h_8 f next last hd =>
    cases hs
    exact ⟨g, h.wake hd⟩
  case h_9 hd =>
    cases hs
    have hlive := (h.refs.last d (by rw [hd]; rfl)).1
    rw [use_eq (h.unfreed_of_live hlive).2]
    exact h.drainPut hd
  case h_10 hd =>
    cases hs
    have hx : s.frees (.drain d) = true := by rw [State.frees, hd]; rfl
    have hd' : s.release.drain d = .free := hd
    rw [use_eq (h.freeing.unfreed hx).2]
    obtain ⟨hself, hother⟩ := frees_act (s := s) (t := s.release.act d .walk) (d := d)
      (q := .walk) rfl rfl rfl
    exact h.release hx (fun _ => rfl) (fun _ => rfl) (fun _ => rfl)
      (update_attr Drain.inside (by rw [hd']; rfl)) (update_attr Drain.link (by rw [hd']; rfl))
      (update_attr Drain.wakes (by rw [hd']; rfl)) (update_attr Drain.last (by rw [hd']; rfl))
      (update_attr Drain.taken (by rw [hd']; rfl)) rfl rfl Iff.rfl hself hother
  case h_11 hd =>
    cases hs
    exact h.leave hd
  case h_12 hd =>
    cases hs
    refine ⟨g, h.outside (by rw [hd]; rfl) ?_⟩
    split <;> rfl

end Drains

/-! ## The close -/

section Close

variable {s : State α} {g : Holders}

/-- A step of the close that leaves the references alone. -/
theorem Inv.closing (h : Inv s g) {closer : Closer} (hrefs : closer.refs = s.closer.refs)
    (hdrops : closer.drops = s.closer.drops) (hidle : closer ≠ .idle ∧ s.closer ≠ .idle)
    (hfrees : closer.frees = s.closer.frees) : Inv { s with closer := closer } g where
  region := ⟨h.region.inside, h.region.flag⟩
  stored := h.stored
  fed := h.fed
  nodes := h.nodes.frame rfl h.nodes.quiet rfl rfl rfl (fun _ hp => hp) (fun _ => rfl)
    (fun _ => rfl) fun _ hx => ⟨hx, id⟩
  asks := h.asks
  refs := h.refs.frame rfl rfl rfl hrefs hdrops (iff_of_false hidle.1 hidle.2) (fun _ => rfl)
    fun _ => rfl
  freeing := by
    refine h.freeing.frame (fun x => ?_) rfl (.inl rfl)
    cases x with
    | recv f => rfl
    | drain d => rfl
    | close => exact hfrees
  fresh := h.fresh
  emptied := h.emptied

/-- The start of the close. -/
theorem Inv.close (h : Inv s g) (hc : s.closer = .idle) :
    Inv { s with
      h := { s.h with refcount := s.h.refcount + 1, closing := true }
      closer := if s.h.armed then .cancel else .putBoth } g := by
  have hopen := h.refs.opened.mpr hc
  have hlive := h.refs.held (.inl hopen)
  have hlast : ∀ d, (s.drain d).last = false := by
    intro d
    rw [← Bool.not_eq_true]
    intro hd
    rw [(h.refs.last d hd).2.2] at hopen
    cases hopen
  have hattr : (if s.h.armed then Closer.cancel else .putBoth).refs = 1 ∧
      (if s.h.armed then Closer.cancel else .putBoth).drops = !s.h.armed ∧
      (if s.h.armed then Closer.cancel else .putBoth).frees = false ∧
      (if s.h.armed then Closer.cancel else .putBoth) ≠ .idle := by
    cases s.h.armed
    · exact ⟨rfl, rfl, rfl, by rintro ⟨⟩⟩
    · exact ⟨rfl, rfl, rfl, by rintro ⟨⟩⟩
  generalize (if s.h.armed then Closer.cancel else .putBoth) = q at hattr
  obtain ⟨hrefs, hdrops, hfrees, hidle⟩ := hattr
  constructor
  case region => exact ⟨h.region.inside, h.region.flag⟩
  case stored => exact h.stored
  case fed => exact h.fed
  case nodes =>
    exact h.nodes.frame rfl h.nodes.quiet rfl rfl rfl (fun _ hp => hp) (fun _ => rfl)
      (fun _ => rfl) fun _ hx => ⟨hx, id⟩
  case asks => exact h.asks
  case refs =>
    constructor
    case nodup => exact h.refs.nodup
    case calls => exact h.refs.calls
    case count =>
      have hcount := h.refs.count
      rw [hc] at hcount
      simp only [Closer.refs] at hcount
      dsimp only
      omega
    case opened => exact iff_of_false (by rintro ⟨⟩) hidle
    case held => exact fun _ => hlive
    case drops =>
      intro hd
      refine ⟨hlive, ?_, hlast⟩
      rw [hdrops, Bool.not_eq_true'] at hd
      exact hd
    case last => exact fun d hd => absurd (hd.symm.trans (hlast d)) (by rintro ⟨⟩)
    case owed =>
      intro _ _ ha
      refine .inl ?_
      dsimp only at ha ⊢
      rw [hdrops, ha]
      rfl
  case freeing =>
    refine h.freeing.frame (frees_same (x := .close) (by rw [State.frees, hc]; rfl) hfrees
      (frees_close rfl rfl)) rfl (.inr ⟨(h.unfreed_of_live hlive).1, Nat.succ_pos _⟩)
  case fresh => exact h.fresh
  case emptied => exact h.emptied

/-- The close drops a reference: its own, or the live one when it is to. -/
theorem Inv.closePut (h : Inv s g) {closer : Closer} {b : Bool} (hc : s.closer ≠ .idle)
    (hidle : closer ≠ .idle)
    (hcount : s.closer.refs + g.live.toNat = closer.refs + b.toNat + 1)
    (hlive : b = g.live ∨ (b = false ∧ s.closer.drops = true))
    (hdrops : closer.drops = (s.closer.drops && b))
    (hfrees : closer.frees = decide (s.h.refcount = 1)) :
    ∃ g', Inv { s.put with closer := closer } g' := by
  have hclosing : s.h.closing = true := by
    rw [← Bool.not_eq_false, h.refs.opened]
    exact hc
  have hpos : 0 < s.h.refcount := by
    rw [h.refs.count]
    omega
  refine ⟨⟨g.walker, g.calls, b, if s.h.refcount = 1 then some .close else none⟩, ?_⟩
  constructor
  case region => exact ⟨h.region.inside, h.region.flag⟩
  case stored => exact h.stored
  case fed => exact h.fed
  case nodes =>
    exact h.nodes.frame rfl h.nodes.quiet rfl rfl rfl (fun _ hp => hp) (fun _ => rfl)
      (fun _ => rfl) fun _ hx => ⟨hx, id⟩
  case asks => exact h.asks
  case refs =>
    constructor
    case nodup => exact h.refs.nodup
    case calls => exact h.refs.calls
    case count =>
      have hold := h.refs.count
      simp only [State.put]
      omega
    case opened => exact iff_of_false (fun ho => absurd (hclosing.symm.trans ho) (by rintro ⟨⟩)) hidle
    case held =>
      rintro (ho | ha)
      · exact absurd (hclosing.symm.trans ho) (by rintro ⟨⟩)
      · rcases hlive with hl | ⟨-, hd⟩
        · rw [hl]
          exact h.refs.held (.inr ha)
        · exact absurd ((h.refs.drops hd).2.1.symm.trans ha) (by rintro ⟨⟩)
    case drops =>
      intro hd
      dsimp only at hd
      rw [hdrops, Bool.and_eq_true] at hd
      exact ⟨hd.2, (h.refs.drops hd.1).2⟩
    case last =>
      intro d hl
      obtain ⟨hg, ha⟩ := h.refs.last d hl
      rcases hlive with hl' | ⟨-, hd⟩
      · exact ⟨hl'.trans hg, ha⟩
      · exact absurd (hl.symm.trans ((h.refs.drops hd).2.2 d)) (by rintro ⟨⟩)
    case owed =>
      intro hl ho ha
      dsimp only
      rcases hlive with hl' | ⟨hf, -⟩
      · have ht : b = true := hl
        rw [hdrops, ht, Bool.and_true]
        exact h.refs.owed (hl'.symm.trans hl) ho ha
      · rw [hf] at hl
        cases hl
  case freeing => exact h.freeing.drop hpos rfl rfl hfrees (frees_close rfl rfl)
  case fresh => exact h.fresh
  case emptied => exact h.emptied

theorem ifFree_attr (k : ℕ) :
    (if k = 1 then Closer.free false else .returned) ≠ .idle ∧
      (if k = 1 then Closer.free false else .returned).refs = 0 ∧
      (if k = 1 then Closer.free false else .returned).drops = false ∧
      (if k = 1 then Closer.free false else .returned).frees = decide (k = 1) := by
  split
  case isTrue h => exact ⟨by rintro ⟨⟩, rfl, rfl, by simp [Closer.frees, h]⟩
  case isFalse h => exact ⟨by rintro ⟨⟩, rfl, rfl, by simp [Closer.frees, h]⟩

theorem Inv.closeStep (h : Inv s g) {t : State α} (hs : closeStep s = some t) :
    ∃ g', Inv t g' := by
  obtain ⟨hidle, hrefs, hdrops, hfrees⟩ := ifFree_attr s.h.refcount
  unfold Multishot.closeStep at hs
  split at hs
  case h_1 hc =>
    cases hs
    have hlive := h.refs.held (.inl (h.refs.opened.mpr hc))
    rw [use_eq (h.unfreed_of_live hlive).2]
    exact ⟨g, h.close hc⟩
  case h_2 hc =>
    cases hs
    exact ⟨g, h.closing (by rw [hc]; rfl) (by rw [hc]; rfl) ⟨by rintro ⟨⟩, by rw [hc]; rintro ⟨⟩⟩
      (by rw [hc]; rfl)⟩
  case h_3 hc =>
    cases hs
    rw [use_eq (h.unfreed_of_close (by rw [hc]; rfl)).2]
    refine h.closePut (b := g.live) (by rw [hc]; rintro ⟨⟩) hidle ?_ (.inl rfl) ?_ hfrees
    · rw [hc, hrefs, Closer.refs]
      omega
    · rw [hc, hdrops]
      rfl
  case h_4 hc =>
    cases hs
    have hd : s.closer.drops = true := by rw [hc]; rfl
    have hlive := (h.refs.drops hd).1
    rw [use_eq (h.unfreed_of_live hlive).2]
    refine h.closePut (b := false) (by rw [hc]; rintro ⟨⟩) hidle ?_ (.inr ⟨rfl, hd⟩) ?_ hfrees
    · rw [hc, hrefs, hlive]
      rfl
    · rw [hdrops, Bool.and_false]
  case h_5 hc =>
    cases hs
    have hd : s.closer.drops = true := by rw [hc]; rfl
    have hlive := (h.refs.drops hd).1
    have hcount := h.refs.count
    rw [hc, hlive] at hcount
    have hne : s.h.refcount ≠ 1 := by
      rw [hcount]
      simp [Closer.refs]
    rw [use_eq (h.unfreed_of_live hlive).2, if_neg hne]
    refine h.closePut (b := g.live) (by rw [hc]; rintro ⟨⟩) (by rintro ⟨⟩) ?_ (.inl rfl) ?_ ?_
    · rw [hc]
      simp [Closer.refs, Nat.add_comm]
    · rw [hc, hlive]
      rfl
    · simp [Closer.frees, hne]
  case h_6 more hc =>
    cases hs
    have hx : s.frees .close = true := by rw [State.frees, hc]; rfl
    obtain ⟨h0, hfreed⟩ := h.freeing.unfreed hx
    have hlive := (h.over h0).2.1
    rw [use_eq hfreed]
    cases more with
    | true => exact absurd ((h.refs.drops (by rw [hc]; rfl)).1.symm.trans hlive) (by rintro ⟨⟩)
    | false =>
      exact h.release hx (fun _ => rfl) (fun _ => rfl) (fun _ => rfl) (fun _ => rfl)
        (fun _ => rfl) (fun _ => rfl) (fun _ => rfl) (fun _ => rfl) (by rw [hc]; rfl)
        (by rw [hc]; rfl) (iff_of_false (by rintro ⟨⟩) (by rw [hc]; rintro ⟨⟩)) rfl (frees_close rfl rfl)
  case h_7 => cases hs

end Close

/-! ## Whole runs -/

section Runs

variable {s t : State α} {g : Holders}

theorem Inv.recvStep (h : Inv s g) {f : ℕ} (hs : recvStep s f = some t)
    (hok : torn s (.recv f) = false) : ∃ g', Inv t g' := by
  unfold Multishot.recvStep at hs
  split at hs
  case h_1 n hf =>
    cases hs
    exact ⟨g, h.goto (by rw [hf]; rfl) (by rw [hf]; rfl) (by rw [hf]; rfl) (fun _ => by rw [hf]; rfl)⟩
  case h_2 n hf =>
    cases hs
    exact ⟨g, h.goto (by rw [hf]; rfl) (by rw [hf]; rfl) (by rw [hf]; rfl) (fun _ => by rw [hf]; rfl)⟩
  case h_3 n hf =>
    cases hs
    exact ⟨g, h.goto (by rw [hf]; rfl) (by rw [hf]; rfl) (by rw [hf]; rfl) (by rintro ⟨⟩)⟩
  case h_4 n hf =>
    cases hs
    have hd : f ∉ s.detached := by
      simp only [torn, hf] at hok
      simpa using hok
    rw [use_eq (h.unfreed_of_call (f := f) (by rw [hf]; rfl)).2]
    split
    · exact h.done hf hd
    · exact h.serve hf hd
  case h_5 r hf =>
    cases hs
    have hx : s.frees (.recv f) = true := by rw [State.frees, hf]; rfl
    have hf' : s.release.pc f = .free r := hf
    rw [use_eq (h.freeing.unfreed hx).2]
    obtain ⟨hself, hother⟩ := frees_goto (s := s) (t := s.release.goto f (.returned r)) (f := f)
      (q := .returned r) rfl rfl rfl
    exact h.release hx (update_attr Pc.pinned (by rw [hf']; rfl))
      (update_attr Pc.want (by rw [hf']; rfl)) (update_attr Pc.waits (by rw [hf']; rfl))
      (fun _ => rfl) (fun _ => rfl) (fun _ => rfl) (fun _ => rfl) (fun _ => rfl) rfl rfl Iff.rfl
      hself hother
  case h_6 => cases hs

/-- The kernel posts a completion. -/
theorem Inv.post (h : Inv s g) (hsqe : s.sqe = true) {pool : Pool α} {c : Cqe}
    (hstored : Stored s.h.inflight s.h.ready pool (pend s g.walker ++ [c]) s.freed) :
    Inv { s with pool := pool, cq := s.cq ++ [c], sqe := c.more } g := by
  have hpend : pend { s with pool := pool, cq := s.cq ++ [c], sqe := c.more } g.walker =
      pend s g.walker ++ [c] := by
    simp only [pend, List.append_assoc]
  constructor
  case region => exact ⟨h.region.inside, h.region.flag⟩
  case stored => rw [hpend]; exact hstored
  case fed =>
    have hf := h.fed
    rw [hsqe] at hf
    rw [hpend]
    exact hf.post c
  case nodes =>
    exact h.nodes.frame rfl h.nodes.quiet rfl rfl rfl (fun _ hp => hp) (fun _ => rfl)
      (fun _ => rfl) fun _ hx => ⟨hx, id⟩
  case asks => exact h.asks
  case refs => exact h.refs.frame rfl rfl rfl rfl rfl Iff.rfl (fun _ => rfl) fun _ => rfl
  case freeing => exact h.freeing.frame (fun x => by cases x <;> rfl) rfl (.inl rfl)
  case fresh => exact h.fresh
  case emptied => exact h.emptied

theorem Inv.step (h : Inv s g) {a : Action α} (hs : step s a = some t) (hok : torn s a = false) :
    ∃ g', Inv t g' := by
  cases a with
  | enter f n =>
    dsimp only [Multishot.step] at hs
    split at hs
    case isTrue hc =>
      cases hs
      obtain ⟨hrests, hidle, hn⟩ := hc
      have hlive := h.refs.held (.inl (h.refs.opened.mpr hidle))
      rw [use_eq (h.unfreed_of_live hlive).2]
      refine (h.pin hrests hlive hn).serve (update_self ..) fun hd => ?_
      exact absurd ((h.nodes.calls f hd).symm.trans (rests_not_pinned hrests).1) (by rintro ⟨⟩)
    case isFalse => cases hs
  | recv f => exact h.recvStep hs hok
  | resume f =>
    dsimp only [Multishot.step] at hs
    split at hs
    case h_1 n hf =>
      split at hs
      case isTrue =>
        cases hs
        refine ⟨g, h.move (update_attr Pc.pinned (by rw [hf]; rfl))
          (update_attr Pc.want (by rw [hf]; rfl)) (update_attr Pc.frees (by rw [hf]; rfl))
          fun x hx => ?_⟩
        by_cases hxf : x = f
        · simp only [State.goto, hxf, update_self] at hx
          cases hx
        · simp only [State.goto, update_of_ne hxf] at hx ⊢
          exact ⟨hx, id⟩
      case isFalse => cases hs
    case h_2 => cases hs
  | signal f =>
    dsimp only [Multishot.step] at hs
    split at hs
    case isTrue =>
      cases hs
      exact ⟨g, h.move (fun _ => rfl) (fun _ => rfl) (fun _ => rfl) fun x hx => ⟨hx, id⟩⟩
    case isFalse => cases hs
  | wake f =>
    cases hs
    refine ⟨g, h.move (fun _ => rfl) (fun _ => rfl) (fun _ => rfl) fun x hx => ⟨hx, fun hw => ?_⟩⟩
    by_cases hxf : x = f
    · rw [hxf, update_self]
    · rw [update_of_ne hxf, hw]
  | start d =>
    dsimp only [Multishot.step] at hs
    split at hs
    case isTrue hd =>
      cases hs
      exact ⟨g, h.outside (by rw [hd]; rfl) rfl⟩
    case isFalse => cases hs
  | drain d => exact h.drainStep hs
  | close => exact h.closeStep hs
  | data bid l more =>
    dsimp only [Multishot.step] at hs
    split at hs
    case isTrue hc =>
      cases hs
      obtain ⟨hsqe, hbid, hpos, hle⟩ := hc
      exact ⟨g, h.post hsqe (c := .data bid l.length more) (h.stored.data hbid hpos hle)⟩
    case isFalse => cases hs
  | other res more =>
    dsimp only [Multishot.step] at hs
    split at hs
    case isTrue hc =>
      cases hs
      exact ⟨g, h.post hc.1 (c := .other res more) h.stored.other⟩
    case isFalse => cases hs

theorem reachable_inv (hr : Reachable (intact α) s) : ∃ g, Inv s g := by
  refine Reachable.invariant (P := fun s => ∃ g, Inv s g) ?_ ?_ hr
  · rintro s rfl
    exact ⟨_, inv_init⟩
  · rintro s a t - ⟨g, h⟩ hs
    obtain ⟨hok, hs⟩ := System.restrict_step.mp hs
    exact h.step hs hok

/-- The node is on the way of the links from `x`. -/
inductive Leads (nxt : ℕ → Option ℕ) : Option ℕ → ℕ → Prop
  | here (f : ℕ) : Leads nxt (some f) f
  | next {a f : ℕ} : Leads nxt (nxt a) f → Leads nxt (some a) f

theorem Chain.leads {nxt : ℕ → Option ℕ} {l : List ℕ} (h : Chain nxt l) {f : ℕ} (hf : f ∈ l) :
    Leads nxt l.head? f := by
  induction l with
  | nil => cases hf
  | cons a l ih =>
    rcases List.mem_cons.mp hf with rfl | hm
    · exact .here f
    · refine .next ?_
      rw [h.1]
      exact ih h.2 hm

/-- A wake of the fiber is pending: it has been made, or a drain is about to make it, or
a drain has nodes in hand from which the links lead to that of the fiber. -/
def PendingWake (s : State α) (f : ℕ) : Prop :=
  s.woken f = true ∨ ∃ d, (s.drain d).wakes = some f ∨
    ∃ x, (s.drain d).link = some x ∧ Leads s.nxt x f

/-- The handle has something for a call. -/
def Handle.Ready (h : Handle) : Prop :=
  h.inflight ≠ none ∨ h.ready ≠ [] ∨ h.eof = true ∨ h.err ≠ 0

/-- The close has begun and has not returned. -/
def Closer.busy : Closer → Bool
  | .idle | .returned => false
  | _ => true

/-- A call, the close or a drain will go to the handle. -/
def State.InUse (s : State α) : Prop :=
  (∃ f, (s.pc f).pinned = true) ∨ s.closer.busy = true ∨
    ∃ d, (s.drain d).taken ≠ [] ∨ (s.drain d).last = true

/-- Nobody is in a call or in the close, the completions are processed, and the
kernel does not have the multishot. -/
structure AllDone (s : State α) : Prop where
  calls : ∀ f, (s.pc f).rests = true
  closed : s.closer = .returned
  drains : ∀ d, (s.drain d).inside = false
  queue : s.cq = []
  sqe : s.sqe = false

/-- The bytes copied out are those posted, in order; a buffer that was posted is with the
handle or was returned, each time once; nobody sleeps beside data; the handle is
freed once, after the close and the terminal completion, and nobody goes to it then. -/
structure Sound (s : State α) : Prop where
  ordered : s.pool.copied <+: s.pool.stream.flatten
  buffers : ∀ x, s.pool.posted.count x =
    s.pool.returned.count x + if x ∈ s.pool.lent then 1 else 0
  awake : ∀ f n, s.pc f = .asleep n → s.h.Ready → PendingWake s f
  once : s.freed ≤ 1
  after : s.freed = 1 → s.h.closing = true ∧ s.sqe = false ∧ s.cq = [] ∧ ¬ s.InUse ∧
    s.pool.posted.Perm s.pool.returned
  freed : AllDone s → s.freed = 1
  unused : s.uaf = false

theorem Inv.buffers (h : Inv s g) (x : ℕ) : s.pool.posted.count x =
    s.pool.returned.count x + if x ∈ s.pool.lent then 1 else 0 := by
  have hcount := h.stored.nodup.count (a := x)
  rw [h.stored.perm.count_eq x, List.count_append, hcount]
  simp only [h.stored.lent x]

theorem Inv.awake (h : Inv s g) {f n : ℕ} (hf : s.pc f = .asleep n) (hready : s.h.Ready) :
    PendingWake s f := by
  rcases h.nodes.parked f (by rw [hf]; rfl) with hm | hm | ⟨d, hd⟩ | hm
  · obtain ⟨hi, hr, heof, herr⟩ := h.nodes.quiet (List.ne_nil_of_mem hm)
    rcases hready with hne | hne | hne | hne
    · exact absurd hi hne
    · exact absurd hr hne
    · rw [heof] at hne
      cases hne
    · exact absurd herr hne
  · obtain ⟨d, x, hx⟩ := h.nodes.busy (List.ne_nil_of_mem hm)
    refine .inr ⟨d, .inr ⟨x, hx, ?_⟩⟩
    rw [h.nodes.walking d x hx]
    exact h.nodes.chained.leads hm
  · exact .inr ⟨d, .inl hd⟩
  · exact .inl hm

/-- Nobody goes to the handle when no reference is left and it is freed. -/
theorem Inv.notInUse (h : Inv s g) (h0 : s.h.refcount = 0) (hw : g.who = none) :
    ¬ s.InUse := by
  obtain ⟨hcalls, hlive, hrefs, hclosing, -, -, hpend⟩ := h.over h0
  rintro (⟨f, hf⟩ | hb | ⟨d, hd | hd⟩)
  · have hm := (h.refs.calls f).mpr hf
    rw [hcalls] at hm
    cases hm
  · have hfrees : s.closer.frees = false := by
      rw [← Bool.not_eq_true]
      intro hx
      rw [(h.freeing.owner .close).mp hx] at hw
      cases hw
    have hdrops : s.closer.drops = false := by
      rw [← Bool.not_eq_true]
      intro hx
      exact absurd ((h.refs.drops hx).1.symm.trans hlive) (by rintro ⟨⟩)
    cases hc : s.closer <;> rw [hc] at hb hrefs hfrees hdrops <;> contradiction
  · have hin : (s.drain d).inside = true := by
      rw [← Bool.not_eq_false]
      exact fun hout => hd (Drain.outside hout).2.2
    rw [(pend_self h hin).2, List.append_eq_nil_iff] at hpend
    exact hd hpend.1
  · exact absurd ((h.refs.last d hd).1.symm.trans hlive) (by rintro ⟨⟩)

theorem Inv.freed_of_allDone (h : Inv s g) (hd : AllDone s) : s.freed = 1 := by
  have hcalls : g.calls = [] := by
    rw [List.eq_nil_iff_forall_not_mem]
    intro f hf
    exact absurd (((h.refs.calls f).mp hf).symm.trans (rests_not_pinned (hd.calls f)).1) (by rintro ⟨⟩)
  have hlast : ∀ d, (s.drain d).last = false := by
    intro d
    rw [← Bool.not_eq_true]
    intro hl
    exact absurd ((Drain.inside_of_last hl).symm.trans (hd.drains d)) (by rintro ⟨⟩)
  have hpend : pend s g.walker = [] := by
    cases hw : g.walker with
    | none => exact hd.queue
    | some d => exact absurd (((h.region.inside d).mpr hw).symm.trans (hd.drains d)) (by rintro ⟨⟩)
  have harmed : s.h.armed = false := by
    rw [← Bool.not_eq_true]
    intro ha
    rcases h.fed.running ha with ⟨hs, -⟩ | ⟨-, l, c, hl, -⟩
    · exact absurd (hs.symm.trans hd.sqe) (by rintro ⟨⟩)
    · rw [hpend] at hl
      exact absurd hl (by simp)
  have hclosing : s.h.closing = true := by
    rw [← Bool.not_eq_false, h.refs.opened, hd.closed]
    rintro ⟨⟩
  have hlive : g.live = false := by
    rw [← Bool.not_eq_true]
    intro hl
    rcases h.refs.owed hl hclosing harmed with hdr | ⟨d, hdr⟩
    · rw [hd.closed] at hdr
      cases hdr
    · exact absurd (hdr.symm.trans (hlast d)) (by rintro ⟨⟩)
  have h0 : s.h.refcount = 0 := by
    rw [h.refs.count, hcalls, hd.closed, hlive]
    rfl
  rcases h.freeing.stage with ⟨hpos, -⟩ | ⟨-, hw, -⟩ | ⟨-, -, hf⟩
  · omega
  · obtain ⟨x, hx⟩ := Option.ne_none_iff_exists'.mp hw
    have hfrees := (h.freeing.owner x).mpr hx
    cases x with
    | recv f => exact absurd (hfrees.symm.trans (rests_not_pinned (hd.calls f)).2) (by rintro ⟨⟩)
    | drain d =>
      have hout := hd.drains d
      cases hq : s.drain d <;> rw [State.frees, hq] at hfrees <;> rw [hq] at hout <;> contradiction
    | close =>
      rw [State.frees, hd.closed] at hfrees
      cases hfrees
  · exact hf

end Runs

/-- The drain whose step it is. -/
def Action.drainer : Action α → Option ℕ
  | .start d | .drain d => some d
  | _ => none

theorem serve_drain (s : State α) (f n : ℕ) : (s.serve f n).drain = s.drain := by
  have hdone : ∀ (t : State α) (r : ℤ), (t.done f r).drain = t.drain := by
    intro t r
    obtain ⟨waiters, nxt, onList, he⟩ := done_shape t f r
    rw [he]
  have hsleep : ∀ t : State α, (t.sleep f n).drain = t.drain := by
    intro t
    obtain ⟨waiters, nxt, onList, he⟩ := sleep_shape t f n
    rw [he]
  unfold State.serve
  dsimp only
  split
  · exact hdone _ _
  split
  · exact hdone _ _
  split
  · exact hdone _ _
  split
  · exact hdone _ _
  split
  · exact hsleep _
  · exact hsleep _

/-- A drain is where it was after the steps of others. -/
theorem step_drain {s t : State α} {a : Action α} {d : ℕ} (hs : step s a = some t)
    (ha : a.drainer ≠ some d) : t.drain d = s.drain d := by
  have hne : ∀ {e : ℕ}, some e ≠ some d → d ≠ e := fun he hde => he (hde ▸ rfl)
  cases a with
  | enter f n =>
    dsimp only [step] at hs
    split at hs
    · cases hs
      rw [serve_drain]
      rfl
    · cases hs
  | recv f =>
    dsimp only [step, recvStep] at hs
    split at hs
    case h_4 =>
      cases hs
      split
      · obtain ⟨waiters, nxt, onList, he⟩ := done_shape s.use f (-1)
        rw [he]
        rfl
      · rw [serve_drain]
        rfl
    all_goals
      cases hs
      try rfl
  | resume f =>
    dsimp only [step] at hs
    split at hs
    · split at hs
      · cases hs
        rfl
      · cases hs
    · cases hs
  | signal f =>
    dsimp only [step] at hs
    split at hs
    · cases hs
      rfl
    · cases hs
  | wake f =>
    cases hs
    rfl
  | start e =>
    dsimp only [step] at hs
    split at hs
    · cases hs
      exact update_of_ne (hne ha) _ _
    · cases hs
  | drain e =>
    dsimp only [step, drainStep] at hs
    split at hs
    case h_1 => cases hs
    case h_4 =>
      split at hs <;> cases hs <;> exact update_of_ne (hne ha) _ _
    case h_2 | h_3 =>
      cases hs
      split <;> exact update_of_ne (hne ha) _ _
    all_goals
      cases hs
      exact update_of_ne (hne ha) _ _
  | close =>
    dsimp only [step, closeStep] at hs
    split at hs
    all_goals
      cases hs
      try rfl
  | data bid l more =>
    dsimp only [step] at hs
    split at hs
    · cases hs
      rfl
    · cases hs
  | other res more =>
    dsimp only [step] at hs
    split at hs
    · cases hs
      rfl
    · cases hs

theorem run_drain {s t : State α} {as : List (Action α)} {d : ℕ}
    (hr : (system α).run s as = some t) (has : some d ∉ as.map Action.drainer) :
    t.drain d = s.drain d := by
  induction as generalizing s with
  | nil =>
    cases hr
    rfl
  | cons a as ih =>
    obtain ⟨u, hu, hrest⟩ := Option.bind_eq_some_iff.mp hr
    rw [List.map_cons, List.mem_cons, not_or] at has
    rw [ih hrest has.2]
    exact step_drain hu (Ne.symm has.1)

end Stackweave.IoUring.Multishot
