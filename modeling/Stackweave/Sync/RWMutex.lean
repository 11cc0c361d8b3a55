import Mathlib.Data.List.Nodup
import Mathlib.Tactic.Common
import Stackweave.Transition

/-!
# `RWMutex` (`sync.py`)

Any number of fibers in `rlock`, `runlock`, `lock` and `unlock`. What is done under
`_mu` is one step. A call that cannot have the lock queues a cell and parks; `unlock`
and `runlock` hand the lock over under the guard and wake the fibers after it. A park
returns when the fiber was woken, and may also return at any time.

Calls are numbered in the order of their first guarded section. History: the numbers
of the granted readers and writers, the writers in the order in which they came, and how often
each side was released.
-/

namespace Stackweave.Sync.RWMutex

open Transition Function

/-- `[g, [granted]]`; the flag is kept under the number of the call. -/
structure Cell where
  g : ℕ
  call : ℕ

structure Lock where
  readers : ℕ
  writer : Bool
  rwait : List Cell
  wwait : List Cell
  granted : ℕ → Bool
  calls : ℕ
  rgrants : List ℕ
  wgrants : List ℕ
  warrived : List ℕ
  rreleased : ℕ
  wreleased : ℕ

/-- What a fiber does next. -/
inductive Pc
  | idle
  /-- the last call raised -/
  | raised
  | parked (writer : Bool) (call : ℕ)
  /-- looks at its flag under the guard -/
  | recheck (writer : Bool) (call : ℕ)
  /-- wakes the fibers that it has handed the lock to -/
  | waking (gs : List ℕ)

structure State where
  lock : Lock
  pc : ℕ → Pc
  woken : ℕ → Bool

def init : State :=
  { lock := ⟨0, false, [], [], fun _ => false, 0, [], [], [], 0, 0⟩
    pc := fun _ => .idle, woken := fun _ => false }

/-! ## The guarded sections -/

/-- The flags of the cells are set. -/
def Lock.grant (m : Lock) (cells : List Cell) : Lock :=
  { m with granted := fun c => m.granted c || (cells.map Cell.call).contains c }

def Lock.rlock (m : Lock) (f : ℕ) : Lock × Pc :=
  if m.writer = false ∧ m.wwait = [] then
    ({ m with
      readers := m.readers + 1
      calls := m.calls + 1
      rgrants := m.rgrants ++ [m.calls] }, .idle)
  else
    ({ m with
      rwait := m.rwait ++ [⟨f, m.calls⟩]
      calls := m.calls + 1 }, .parked false m.calls)

def Lock.runlock (m : Lock) : Lock × Pc :=
  match m.readers with
  | 0 => (m, .raised)
  | n + 1 =>
    let m := { m with readers := n, rreleased := m.rreleased + 1 }
    match n, m.wwait with
    | 0, cell :: rest =>
      ({ m.grant [cell] with
        writer := true
        wwait := rest
        wgrants := m.wgrants ++ [cell.call] }, .waking [cell.g])
    | _, _ => (m, .idle)

def Lock.lock (m : Lock) (f : ℕ) : Lock × Pc :=
  if m.writer = false ∧ m.readers = 0 then
    ({ m with
      writer := true
      calls := m.calls + 1
      wgrants := m.wgrants ++ [m.calls]
      warrived := m.warrived ++ [m.calls] }, .idle)
  else
    ({ m with
      wwait := m.wwait ++ [⟨f, m.calls⟩]
      calls := m.calls + 1
      warrived := m.warrived ++ [m.calls] }, .parked true m.calls)

def Lock.unlock (m : Lock) : Lock × Pc :=
  if m.writer = false then (m, .raised)
  else
    let m := { m with wreleased := m.wreleased + 1 }
    match m.wwait with
    | cell :: rest =>
      ({ m.grant [cell] with
        wwait := rest
        wgrants := m.wgrants ++ [cell.call] }, .waking [cell.g])
    | [] =>
      if m.rwait = [] then ({ m with writer := false }, .idle)
      else
        ({ m.grant m.rwait with
          writer := false
          rwait := []
          readers := m.rwait.length
          rgrants := m.rgrants ++ m.rwait.map Cell.call }, .waking (m.rwait.map Cell.g))

/-! ## The steps -/

inductive Action
  | rlock (f : ℕ)
  | runlock (f : ℕ)
  | lock (f : ℕ)
  | unlock (f : ℕ)
  | resume (f : ℕ)
  | spurious (f : ℕ)
  | fiber (f : ℕ)

/-- The fiber is not in a call. -/
def Pc.rests : Pc → Bool
  | .idle | .raised => true
  | _ => false

def State.goto (s : State) (f : ℕ) (q : Pc) : State :=
  { s with pc := Function.update s.pc f q }

/-- A guarded section of the fiber. -/
def State.section (s : State) (f : ℕ) (r : Lock × Pc) : State :=
  { s.goto f r.2 with lock := r.1 }

def fiberStep (s : State) (f : ℕ) : Option State :=
  match s.pc f with
  | .recheck w c => some (s.goto f (if s.lock.granted c then .idle else .parked w c))
  | .waking [] => some (s.goto f .idle)
  | .waking (g :: gs) =>
    some { s.goto f (.waking gs) with woken := Function.update s.woken g true }
  | _ => none

@[grind =]
def step (s : State) : Action → Option State
  | .rlock f => if (s.pc f).rests then some (s.section f (s.lock.rlock f)) else none
  | .runlock f => if (s.pc f).rests then some (s.section f s.lock.runlock) else none
  | .lock f => if (s.pc f).rests then some (s.section f (s.lock.lock f)) else none
  | .unlock f => if (s.pc f).rests then some (s.section f s.lock.unlock) else none
  | .resume f =>
    match s.pc f with
    | .parked w c =>
      if s.woken f then
        some { s.goto f (.recheck w c) with woken := Function.update s.woken f false }
      else none
    | _ => none
  | .spurious f =>
    match s.pc f with
    | .parked w c => some (s.goto f (.recheck w c))
    | _ => none
  | .fiber f => fiberStep s f

def system : System State Action where
  init s := s = init
  step := step

/-! ## The lock -/

/-- The counters are those of the grants that are not released, nobody is queued behind
a free lock, and nobody passes a queued writer. -/
structure Core (m : Lock) : Prop where
  exclusive : m.writer = true → m.readers = 0
  readers : m.readers + m.rreleased = m.rgrants.length
  writer : m.writer.toNat + m.wreleased = m.wgrants.length
  rfree : m.rwait ≠ [] → m.writer = true ∨ m.wwait ≠ []
  wfree : m.wwait ≠ [] → m.writer = true ∨ 0 < m.readers
  fifo : m.warrived = m.wgrants ++ m.wwait.map Cell.call
  behind : ∀ r ∈ m.rgrants, ∀ c ∈ m.wwait, r < c.call
  past : ∀ r ∈ m.rgrants, r < m.calls
  rpast : ∀ c ∈ m.rwait, c.call < m.calls

variable {m t : Lock} {f : ℕ} {q : Pc} {s : State}

theorem Core.rlock (h : Core m) (f : ℕ) : Core (m.rlock f).1 := by
  unfold Lock.rlock
  split
  case isTrue hfree =>
    constructor
    case exclusive =>
      intro hw
      rw [hfree.1] at hw
      cases hw
    case readers =>
      have hcount := h.readers
      simp only [List.length_append, List.length_singleton]
      omega
    case writer => exact h.writer
    case rfree => exact h.rfree
    case wfree => exact fun _ => .inr (Nat.succ_pos _)
    case fifo => exact h.fifo
    case behind =>
      intro r _ c hc
      dsimp only at hc
      rw [hfree.2] at hc
      cases hc
    case past =>
      intro r hr
      rcases List.mem_append.mp hr with hr | hr
      · exact Nat.lt_succ_of_lt (h.past r hr)
      · rw [List.mem_singleton.mp hr]
        exact Nat.lt_succ_self _
    case rpast => exact fun c hc => Nat.lt_succ_of_lt (h.rpast c hc)
  case isFalse hbusy =>
    constructor
    case exclusive => exact h.exclusive
    case readers => exact h.readers
    case writer => exact h.writer
    case rfree =>
      intro _
      cases hw : m.writer with
      | true => exact .inl rfl
      | false => exact .inr fun hn => hbusy ⟨hw, hn⟩
    case wfree => exact h.wfree
    case fifo => exact h.fifo
    case behind => exact h.behind
    case past => exact fun r hr => Nat.lt_succ_of_lt (h.past r hr)
    case rpast =>
      intro c hc
      rcases List.mem_append.mp hc with hc | hc
      · exact Nat.lt_succ_of_lt (h.rpast c hc)
      · rw [List.mem_singleton.mp hc]
        exact Nat.lt_succ_self _

/-- A reader is released, and somebody is left or no writer is queued. -/
theorem Core.release (h : Core m) {n : ℕ} (hn : m.readers = n + 1)
    (hq : 0 < n ∨ m.wwait = []) : Core { m with readers := n, rreleased := m.rreleased + 1 } := by
  have hwriter : m.writer = false := by
    rw [← Bool.not_eq_true]
    intro hw
    rw [h.exclusive hw] at hn
    cases hn
  constructor
  case exclusive => exact fun hw => absurd (hw.symm.trans hwriter) (by rintro ⟨⟩)
  case readers =>
    have hcount := h.readers
    dsimp only
    omega
  case writer => exact h.writer
  case rfree => exact h.rfree
  case wfree =>
    intro hne
    rcases hq with hpos | hnil
    · exact .inr hpos
    · exact absurd hnil hne
  case fifo => exact h.fifo
  case behind => exact h.behind
  case past => exact h.past
  case rpast => exact h.rpast

/-- The lock goes to the first queued writer. -/
theorem Core.handOver (h : Core m) {cell : Cell} {rest : List Cell}
    (hq : m.wwait = cell :: rest) (readers rreleased wreleased : ℕ) (hr : readers = 0)
    (hreaders : readers + rreleased = m.rgrants.length)
    (hwriter : wreleased = m.wgrants.length) :
    Core { m.grant [cell] with
      writer := true, wwait := rest, wgrants := m.wgrants ++ [cell.call]
      readers := readers, rreleased := rreleased, wreleased := wreleased } where
  exclusive := fun _ => hr
  readers := hreaders
  writer := by
    simp only [Bool.toNat_true, List.length_append, List.length_singleton]
    omega
  rfree := fun _ => .inl rfl
  wfree := fun _ => .inl rfl
  fifo := by
    dsimp only [Lock.grant]
    rw [h.fifo, hq]
    simp
  behind := fun r hr c hc => h.behind r hr c (hq ▸ List.mem_cons_of_mem _ hc)
  past := h.past
  rpast := h.rpast

theorem Core.runlock (h : Core m) : Core m.runlock.1 := by
  unfold Lock.runlock
  split
  case h_1 => exact h
  case h_2 n hn =>
    have hwriter : m.writer = false := by
      rw [← Bool.not_eq_true]
      intro hw
      rw [h.exclusive hw] at hn
      cases hn
    have hreaders := h.readers
    have hwrites := h.writer
    rw [hwriter] at hwrites
    dsimp only
    split
    case h_1 cell rest hq =>
      refine h.handOver hq 0 (m.rreleased + 1) m.wreleased rfl ?_ ?_
      · omega
      · simpa using hwrites
    case h_2 hother =>
      refine h.release hn ?_
      by_cases hq : m.wwait = []
      · exact .inr hq
      · obtain ⟨cell, rest, hc⟩ := List.exists_cons_of_ne_nil hq
        exact .inl (Nat.pos_of_ne_zero fun h0 => hother cell rest h0 hc)

theorem Core.lock (h : Core m) (f : ℕ) : Core (m.lock f).1 := by
  unfold Lock.lock
  split
  case isTrue hfree =>
    have hempty : m.wwait = [] := by
      by_contra hne
      rcases h.wfree hne with hw | hr
      · rw [hfree.1] at hw
        cases hw
      · omega
    constructor
    case exclusive => exact fun _ => hfree.2
    case readers => exact h.readers
    case writer =>
      have hwrites := h.writer
      rw [hfree.1] at hwrites
      simp only [Bool.toNat_true, List.length_append, List.length_singleton]
      simp only [Bool.toNat_false] at hwrites
      omega
    case rfree => exact fun _ => .inl rfl
    case wfree => exact fun _ => .inl rfl
    case fifo =>
      dsimp only
      rw [h.fifo, hempty]
      simp
    case behind => exact h.behind
    case past => exact fun r hr => Nat.lt_succ_of_lt (h.past r hr)
    case rpast => exact fun c hc => Nat.lt_succ_of_lt (h.rpast c hc)
  case isFalse hbusy =>
    constructor
    case exclusive => exact h.exclusive
    case readers => exact h.readers
    case writer => exact h.writer
    case rfree => exact fun _ => .inr (by simp)
    case wfree =>
      intro _
      cases hw : m.writer with
      | true => exact .inl rfl
      | false => exact .inr (Nat.pos_of_ne_zero fun hn => hbusy ⟨hw, hn⟩)
    case fifo =>
      dsimp only
      rw [h.fifo]
      simp
    case behind =>
      intro r hr c hc
      rcases List.mem_append.mp hc with hc | hc
      · exact h.behind r hr c hc
      · rw [List.mem_singleton.mp hc]
        exact h.past r hr
    case past => exact fun r hr => Nat.lt_succ_of_lt (h.past r hr)
    case rpast => exact fun c hc => Nat.lt_succ_of_lt (h.rpast c hc)

theorem Core.unlock (h : Core m) : Core m.unlock.1 := by
  unfold Lock.unlock
  split
  case isTrue => exact h
  case isFalse hw =>
    rw [Bool.not_eq_false] at hw
    have hnone := h.exclusive hw
    have hreaders := h.readers
    have hwrites := h.writer
    rw [hw, Bool.toNat_true] at hwrites
    dsimp only
    split
    case h_1 cell rest hq =>
      have ht := h.handOver hq m.readers m.rreleased (m.wreleased + 1) hnone hreaders (by omega)
      rw [← hw] at ht
      exact ht
    case h_2 hq =>
      split
      case isTrue hr =>
        constructor
        case exclusive => rintro ⟨⟩
        case readers => exact h.readers
        case writer =>
          simp only [Bool.toNat_false]
          omega
        case rfree => exact fun hne => absurd hr hne
        case wfree => exact fun hne => absurd hq hne
        case fifo => exact h.fifo
        case behind => exact h.behind
        case past => exact h.past
        case rpast => exact h.rpast
      case isFalse hr =>
        constructor
        case exclusive => rintro ⟨⟩
        case readers =>
          dsimp only [Lock.grant]
          rw [List.length_append, List.length_map]
          omega
        case writer =>
          simp only [Bool.toNat_false, Lock.grant]
          omega
        case rfree => exact fun hne => absurd rfl hne
        case wfree => exact fun hne => absurd hq hne
        case fifo => exact h.fifo
        case behind =>
          intro r _ c hc
          dsimp only [Lock.grant] at hc
          rw [hq] at hc
          cases hc
        case past =>
          intro r hm
          rcases List.mem_append.mp hm with hm | hm
          · exact h.past r hm
          · obtain ⟨c, hc, rfl⟩ := List.mem_map.mp hm
            exact h.rpast c hc
        case rpast => rintro _ ⟨⟩

/-! ## The cells -/

def Lock.queue (m : Lock) (writer : Bool) : List Cell := if writer then m.wwait else m.rwait

def Lock.grants (m : Lock) (writer : Bool) : List ℕ := if writer then m.wgrants else m.rgrants

/-- The cell of the call in progress. -/
def Pc.cell : Pc → Option (Bool × ℕ)
  | .parked w n | .recheck w n => some (w, n)
  | _ => none

def Pc.asleep : Pc → Bool
  | .parked _ _ => true
  | _ => false

def Pc.wakes : Pc → List ℕ
  | .waking gs => gs
  | _ => []

/-- The queued cells are those of different calls, and their flags are not set. -/
structure Cells (m : Lock) : Prop where
  nodup : ((m.wwait ++ m.rwait).map Cell.call).Nodup
  past : ∀ c ∈ m.wwait ++ m.rwait, c.call < m.calls
  clear : ∀ c ∈ m.wwait ++ m.rwait, m.granted c.call = false
  granted : ∀ n, m.granted n = true → n < m.calls

/-- What a guarded section does to the cells: a cell stays in its queue, or it is granted and
its fiber is going to be woken. -/
structure Passes (m : Lock) (f : ℕ) (r : Lock × Pc) : Prop where
  cells : Cells r.1
  stays : ∀ w, ∀ c ∈ m.queue w, c ∈ r.1.queue w ∨
    (r.1.granted c.call = true ∧ c.call ∈ r.1.grants w ∧ c.g ∈ r.2.wakes)
  flags : ∀ n, m.granted n = true → r.1.granted n = true
  kept : ∀ w, ∀ n ∈ m.grants w, n ∈ r.1.grants w
  queued : ∀ w n, r.2.cell = some (w, n) → ⟨f, n⟩ ∈ r.1.queue w

/-- A call without a cell. -/
theorem Cells.count (h : Cells m) (hw : t.wwait = m.wwait)
    (hr : t.rwait = m.rwait) (hg : t.granted = m.granted) (hc : m.calls ≤ t.calls) :
    Cells t := by
  constructor
  case nodup => rw [hw, hr]; exact h.nodup
  case past =>
    rw [hw, hr]
    exact fun c hm => Nat.lt_of_lt_of_le (h.past c hm) hc
  case clear => rw [hw, hr, hg]; exact h.clear
  case granted =>
    rw [hg]
    exact fun n hn => Nat.lt_of_lt_of_le (h.granted n hn) hc

/-- The cell of the newest call is queued. -/
theorem Cells.push (h : Cells m)
    (hq : (t.wwait ++ t.rwait).Perm (⟨f, m.calls⟩ :: (m.wwait ++ m.rwait)))
    (hg : t.granted = m.granted) (hc : t.calls = m.calls + 1) : Cells t := by
  have hcases : ∀ c ∈ t.wwait ++ t.rwait, c.call = m.calls ∨ c ∈ m.wwait ++ m.rwait := by
    intro c hm
    rcases List.mem_cons.mp (hq.mem_iff.mp hm) with hm | hm
    · exact .inl (by rw [hm])
    · exact .inr hm
  constructor
  case nodup =>
    rw [(hq.map Cell.call).nodup_iff, List.map_cons, List.nodup_cons]
    refine ⟨fun hm => ?_, h.nodup⟩
    obtain ⟨c, hc, heq⟩ := List.mem_map.mp hm
    dsimp only at heq
    exact absurd (h.past c hc) (by omega)
  case past =>
    intro c hm
    rw [hc]
    rcases hcases c hm with heq | hm
    · omega
    · exact Nat.lt_succ_of_lt (h.past c hm)
  case clear =>
    intro c hm
    rw [hg]
    rcases hcases c hm with heq | hm
    · rw [heq, ← Bool.not_eq_true]
      exact fun hn => absurd (h.granted _ hn) (Nat.lt_irrefl _)
    · exact h.clear c hm
  case granted =>
    intro n hn
    rw [hg] at hn
    rw [hc]
    exact Nat.lt_succ_of_lt (h.granted n hn)

/-- Cells are taken out of the queues and granted. -/
theorem Cells.take (h : Cells m) {l : List Cell}
    (hq : (m.wwait ++ m.rwait).Perm (l ++ (t.wwait ++ t.rwait)))
    (hg : t.granted = (m.grant l).granted) (hc : t.calls = m.calls) : Cells t := by
  have hnd : (l.map Cell.call ++ (t.wwait ++ t.rwait).map Cell.call).Nodup := by
    rw [← List.map_append]
    exact (hq.map Cell.call).nodup_iff.mp h.nodup
  have hold : ∀ c ∈ t.wwait ++ t.rwait, c ∈ m.wwait ++ m.rwait := fun c hm =>
    hq.mem_iff.mpr (List.mem_append_right _ hm)
  constructor
  case nodup => exact (List.nodup_append.mp hnd).2.1
  case past =>
    rw [hc]
    exact fun c hm => h.past c (hold c hm)
  case clear =>
    intro c hm
    rw [hg]
    simp only [Lock.grant, Bool.or_eq_false_iff]
    refine ⟨h.clear c (hold c hm), ?_⟩
    rw [← Bool.not_eq_true, List.contains_iff_mem]
    intro hout
    exact (List.nodup_append.mp hnd).2.2 _ hout _ (List.mem_map_of_mem hm) rfl
  case granted =>
    intro n hn
    rw [hg] at hn
    rw [hc]
    simp only [Lock.grant, Bool.or_eq_true, List.contains_iff_mem] at hn
    rcases hn with hn | hn
    · exact h.granted n hn
    · obtain ⟨c, hm, rfl⟩ := List.mem_map.mp hn
      exact h.past c (hq.mem_iff.mpr (List.mem_append_left _ hm))

theorem granted_of_mem {l : List Cell} {c : Cell} (h : c ∈ l) :
    (m.grant l).granted c.call = true := by
  simp only [Lock.grant, Bool.or_eq_true, List.contains_iff_mem]
  exact .inr (List.mem_map_of_mem h)

theorem granted_mono {l : List Cell} {n : ℕ} (h : m.granted n = true) :
    (m.grant l).granted n = true := by
  simp only [Lock.grant, h, Bool.true_or]

theorem Passes.rlock (h : Cells m) (f : ℕ) : Passes m f (m.rlock f) := by
  unfold Lock.rlock
  split
  case isTrue =>
    constructor
    case cells => exact h.count rfl rfl rfl (Nat.le_succ _)
    case stays => exact fun w c hc => .inl hc
    case flags => exact fun _ hn => hn
    case kept =>
      intro w n hn
      cases w with
      | true => exact hn
      | false => exact List.mem_append_left _ hn
    case queued => rintro _ _ ⟨⟩
  case isFalse =>
    constructor
    case cells =>
      refine h.push (f := f) ?_ rfl rfl
      dsimp only
      rw [← List.append_assoc]
      exact List.perm_append_comm
    case stays =>
      intro w c hc
      cases w with
      | true => exact .inl hc
      | false => exact .inl (List.mem_append_left _ hc)
    case flags => exact fun _ hn => hn
    case kept => exact fun w n hn => by cases w <;> exact hn
    case queued =>
      intro w n hc
      cases hc
      exact List.mem_append_right _ List.mem_cons_self

theorem Passes.lock (h : Cells m) (f : ℕ) : Passes m f (m.lock f) := by
  unfold Lock.lock
  split
  case isTrue =>
    constructor
    case cells => exact h.count rfl rfl rfl (Nat.le_succ _)
    case stays => exact fun w c hc => .inl hc
    case flags => exact fun _ hn => hn
    case kept =>
      intro w n hn
      cases w with
      | true => exact List.mem_append_left _ hn
      | false => exact hn
    case queued => rintro _ _ ⟨⟩
  case isFalse =>
    constructor
    case cells =>
      refine h.push (f := f) ?_ rfl rfl
      dsimp only
      rw [List.append_assoc]
      exact List.perm_middle
    case stays =>
      intro w c hc
      cases w with
      | true => exact .inl (List.mem_append_left _ hc)
      | false => exact .inl hc
    case flags => exact fun _ hn => hn
    case kept => exact fun w n hn => by cases w <;> exact hn
    case queued =>
      intro w n hc
      cases hc
      exact List.mem_append_right _ List.mem_cons_self

/-- The lock goes to the first queued writer. -/
theorem Passes.handOver (h : Cells m) (f : ℕ) {cell : Cell} {rest : List Cell}
    (hq : m.wwait = cell :: rest) (hw : t.wwait = rest) (hr : t.rwait = m.rwait)
    (hg : t.granted = (m.grant [cell]).granted) (hc : t.calls = m.calls)
    (hrg : t.rgrants = m.rgrants) (hwg : t.wgrants = m.wgrants ++ [cell.call]) :
    Passes m f (t, .waking [cell.g]) := by
  constructor
  case cells =>
    refine h.take (l := [cell]) ?_ hg hc
    rw [hq, hw, hr]
    exact .refl _
  case stays =>
    intro w c hm
    cases w with
    | true =>
      simp only [Lock.queue, Lock.grants, if_true] at hm ⊢
      rw [hq] at hm
      rcases List.mem_cons.mp hm with rfl | hm
      · right
        rw [hg, hwg]
        exact ⟨granted_of_mem List.mem_cons_self, by simp, List.mem_cons_self⟩
      · left
        rw [hw]
        exact hm
    | false =>
      left
      change c ∈ t.rwait
      rw [hr]
      exact hm
  case flags =>
    intro n hn
    rw [hg]
    exact granted_mono hn
  case kept =>
    intro w n hn
    cases w with
    | true =>
      change n ∈ t.wgrants
      rw [hwg]
      exact List.mem_append_left _ hn
    | false =>
      change n ∈ t.rgrants
      rw [hrg]
      exact hn
  case queued => rintro _ _ ⟨⟩

/-- A section that takes no cell out of a queue. -/
theorem Passes.same (h : Cells m) (f : ℕ) (hq : q.cell = none)
    (hw : t.wwait = m.wwait) (hr : t.rwait = m.rwait) (hg : t.granted = m.granted)
    (hc : t.calls = m.calls) (hrg : t.rgrants = m.rgrants) (hwg : t.wgrants = m.wgrants) :
    Passes m f (t, q) := by
  constructor
  case cells => exact h.count hw hr hg (Nat.le_of_eq hc.symm)
  case stays =>
    intro w c hm
    refine .inl ?_
    simp only [Lock.queue, hw, hr]
    exact hm
  case flags => exact fun n hn => by rw [hg]; exact hn
  case kept =>
    intro w n hn
    simp only [Lock.grants, hrg, hwg]
    exact hn
  case queued => exact fun w n hn => absurd (hn.symm.trans hq) (by rintro ⟨⟩)

theorem Passes.runlock (h : Cells m) (f : ℕ) : Passes m f m.runlock := by
  unfold Lock.runlock
  split
  case h_1 => exact .same h f rfl rfl rfl rfl rfl rfl rfl
  case h_2 n hn =>
    dsimp only
    split
    case h_1 hq => exact .handOver h f hq rfl rfl rfl rfl rfl rfl
    case h_2 => exact .same h f rfl rfl rfl rfl rfl rfl rfl

theorem Passes.unlock (h : Cells m) (f : ℕ) : Passes m f m.unlock := by
  unfold Lock.unlock
  split
  case isTrue => exact .same h f rfl rfl rfl rfl rfl rfl rfl
  case isFalse =>
    dsimp only
    split
    case h_1 cell rest hq => exact .handOver h f hq rfl rfl rfl rfl rfl rfl
    case h_2 hq =>
      split
      case isTrue => exact .same h f rfl rfl rfl rfl rfl rfl rfl
      case isFalse =>
        constructor
        case cells =>
          refine h.take (l := m.rwait) ?_ rfl rfl
          dsimp only [Lock.grant]
          rw [hq, List.append_nil, List.append_nil]
          exact .refl _
        case stays =>
          intro w c hm
          cases w with
          | true => exact .inl hm
          | false =>
            refine .inr ⟨granted_of_mem hm, ?_, List.mem_map_of_mem hm⟩
            exact List.mem_append_right _ (List.mem_map_of_mem hm)
        case flags => exact fun n hn => granted_mono hn
        case kept =>
          intro w n hn
          cases w with
          | true => exact hn
          | false => exact List.mem_append_left _ hn
        case queued => rintro _ _ ⟨⟩

/-! ## The fibers -/

/-- The wake of the fiber has been made, or another fiber is going to make it. -/
def PendingWake (s : State) (f : ℕ) : Prop :=
  s.woken f = true ∨ ∃ e, f ∈ (s.pc e).wakes

/-- A call in progress is queued, or it has the lock and its fiber is awake or
will be woken. -/
def Attended (s : State) : Prop :=
  ∀ f w n, (s.pc f).cell = some (w, n) → ⟨f, n⟩ ∈ s.lock.queue w ∨
    (s.lock.granted n = true ∧ n ∈ s.lock.grants w ∧ ((s.pc f).asleep = true → PendingWake s f))

structure Inv (s : State) : Prop where
  core : Core s.lock
  cells : Cells s.lock
  attended : Attended s

theorem inv_init : Inv init where
  core :=
    { exclusive := (by rintro ⟨⟩), readers := rfl, writer := rfl
      rfree := fun h => absurd rfl h
      wfree := fun h => absurd rfl h
      fifo := rfl, behind := (by rintro _ ⟨⟩), past := (by rintro _ ⟨⟩), rpast := (by rintro _ ⟨⟩) }
  cells := ⟨List.nodup_nil, by rintro _ ⟨⟩, by rintro _ ⟨⟩, by rintro _ ⟨⟩⟩
  attended := by rintro _ _ _ ⟨⟩

/-- A fiber moves on, and its wakes stay pending. -/
theorem Attended.goto {t : State} (h : Attended s)
    (hpc : t.pc = update s.pc f q) (hlock : t.lock = s.lock)
    (hcell : q.cell = none ∨ q.cell = (s.pc f).cell)
    (hasleep : q.asleep = true → ∀ w n, q.cell = some (w, n) → s.lock.granted n = true → False)
    (hwakes : ∀ e, e ≠ f → PendingWake s e → PendingWake t e) : Attended t := by
  intro e w n hc
  rw [hlock]
  rw [hpc] at hc ⊢
  by_cases hef : e = f
  · subst hef
    rw [update_self] at hc ⊢
    rcases hcell with hnone | hsame
    · rw [hnone] at hc
      cases hc
    · rcases h e w n (hsame ▸ hc) with hq | ⟨hg, hn, -⟩
      · exact .inl hq
      · exact .inr ⟨hg, hn, fun ha => (hasleep ha w n hc hg).elim⟩
  · rw [update_of_ne hef] at hc ⊢
    rcases h e w n hc with hq | ⟨hg, hn, hp⟩
    · exact .inl hq
    · exact .inr ⟨hg, hn, fun ha => hwakes e hef (hp ha)⟩

theorem rests_cell (h : q.rests = true) : q.cell = none ∧ q.wakes = [] := by
  cases q <;> first | exact ⟨rfl, rfl⟩ | cases h

/-- A guarded section of a fiber that is not in a call. -/
theorem Attended.section (h : Attended s) (hf : (s.pc f).rests = true)
    {r : Lock × Pc} (hr : Passes s.lock f r) : Attended (s.section f r) := by
  have hself : (s.section f r).pc f = r.2 := update_self ..
  have hold : ∀ e, e ≠ f → (s.section f r).pc e = s.pc e := fun e he =>
    update_of_ne he _ _
  intro e w n hc
  by_cases hef : e = f
  · subst hef
    rw [hself] at hc
    exact .inl (hr.queued w n hc)
  · rw [hold e hef] at hc ⊢
    rcases h e w n hc with hq | ⟨hg, hn, hp⟩
    · rcases hr.stays w _ hq with hq | ⟨hg, hn, hw⟩
      · exact .inl hq
      · refine .inr ⟨hg, hn, fun _ => .inr ⟨f, ?_⟩⟩
        rw [hself]
        exact hw
    · refine .inr ⟨hr.flags n hg, hr.kept w n hn, fun ha => ?_⟩
      rcases hp ha with hw | ⟨m, hm⟩
      · exact .inl hw
      · refine .inr ⟨m, ?_⟩
        have hmf : m ≠ f := by
          rintro rfl
          rw [(rests_cell hf).2] at hm
          cases hm
        rw [hold m hmf]
        exact hm

/-- The wakes of the others, when the fiber had none to make. -/
theorem PendingWake.goto {t : State} {e : ℕ} (h : PendingWake s e)
    (hpc : t.pc = update s.pc f q) (hf : (s.pc f).wakes = [])
    (hw : s.woken e = true → t.woken e = true) : PendingWake t e := by
  rcases h with h | ⟨m, hm⟩
  · exact .inl (hw h)
  · refine .inr ⟨m, ?_⟩
    have hmf : m ≠ f := by
      rintro rfl
      rw [hf] at hm
      cases hm
    rw [hpc, update_of_ne hmf]
    exact hm

theorem fiberStep_attended {t : State} (h : Attended s) (hs : fiberStep s f = some t) :
    Attended t ∧ t.lock = s.lock := by
  unfold fiberStep at hs
  split at hs
  case h_1 w c hf =>
    cases hs
    refine ⟨h.goto rfl rfl ?_ ?_ ?_, rfl⟩
    · split
      · exact .inl rfl
      · exact .inr (by rw [hf]; rfl)
    · split
      case isTrue => rintro ⟨⟩
      case isFalse hg =>
        intro _ w' n hc hn
        cases hc
        exact hg hn
    · exact fun e _ hp => hp.goto rfl (by rw [hf]; rfl) id
  case h_2 hf =>
    cases hs
    exact ⟨h.goto rfl rfl (.inl rfl) (by rintro ⟨⟩) fun e _ hp =>
      hp.goto rfl (by rw [hf]; rfl) id, rfl⟩
  case h_3 g gs hf =>
    cases hs
    refine ⟨h.goto rfl rfl (.inl rfl) (by rintro ⟨⟩) fun e _ hp => ?_, rfl⟩
    have hwoken : e = g ∨ s.woken e = true → update s.woken g true e = true := by
      rintro (rfl | hw)
      · exact update_self ..
      · by_cases heg : e = g
        · rw [heg, update_self]
        · rw [update_of_ne heg, hw]
    rcases hp with hw | ⟨m, hm⟩
    · exact .inl (hwoken (.inr hw))
    · by_cases hmf : m = f
      · rw [hmf, hf] at hm
        rcases List.mem_cons.mp hm with heg | hm
        · exact .inl (hwoken (.inl heg))
        · refine .inr ⟨f, ?_⟩
          simp only [State.goto, update_self]
          exact hm
      · refine .inr ⟨m, ?_⟩
        simp only [State.goto, update_of_ne hmf]
        exact hm
  case h_4 => cases hs

theorem Inv.section (h : Inv s) (hf : (s.pc f).rests = true)
    {r : Lock × Pc} (hr : Passes s.lock f r) (hc : Core r.1) : Inv (s.section f r) :=
  ⟨hc, hr.cells, h.attended.section hf hr⟩

theorem Inv.step {t : State} {a : Action} (h : Inv s) (hs : step s a = some t) : Inv t := by
  cases a with
  | rlock f =>
    dsimp only [RWMutex.step] at hs
    split at hs
    case isTrue hf =>
      cases hs
      exact h.section hf (.rlock h.cells f) (h.core.rlock f)
    case isFalse => cases hs
  | runlock f =>
    dsimp only [RWMutex.step] at hs
    split at hs
    case isTrue hf =>
      cases hs
      exact h.section hf (.runlock h.cells f) h.core.runlock
    case isFalse => cases hs
  | lock f =>
    dsimp only [RWMutex.step] at hs
    split at hs
    case isTrue hf =>
      cases hs
      exact h.section hf (.lock h.cells f) (h.core.lock f)
    case isFalse => cases hs
  | unlock f =>
    dsimp only [RWMutex.step] at hs
    split at hs
    case isTrue hf =>
      cases hs
      exact h.section hf (.unlock h.cells f) h.core.unlock
    case isFalse => cases hs
  | resume f =>
    dsimp only [RWMutex.step] at hs
    split at hs
    case h_1 w c hf =>
      split at hs
      case isTrue =>
        cases hs
        refine ⟨h.core, h.cells, h.attended.goto rfl rfl (.inr (by rw [hf]; rfl)) (by rintro ⟨⟩) ?_⟩
        intro e hef hp
        refine hp.goto rfl (by rw [hf]; rfl) (fun hw => ?_)
        exact (update_of_ne hef _ _).trans hw
      case isFalse => cases hs
    case h_2 => cases hs
  | spurious f =>
    dsimp only [RWMutex.step] at hs
    split at hs
    case h_1 w c hf =>
      cases hs
      exact ⟨h.core, h.cells, h.attended.goto rfl rfl (.inr (by rw [hf]; rfl)) (by rintro ⟨⟩)
        fun e _ hp => hp.goto rfl (by rw [hf]; rfl) id⟩
    case h_2 => cases hs
  | fiber f =>
    obtain ⟨ha, hl⟩ := fiberStep_attended h.attended hs
    exact ⟨hl ▸ h.core, hl ▸ h.cells, ha⟩

/-- What holds between two guarded sections: the lock is one writer's or the readers', the
counters are the grants that are not released, nobody is queued behind a free lock, and
a call that parks is queued or has the lock and a wake. Writers have the lock in the
order in which they came, and no reader has it before a writer who was queued when it came. -/
structure Orderly (s : State) : Prop where
  exclusive : ¬ (s.lock.writer = true ∧ 0 < s.lock.readers)
  readers : s.lock.rgrants.length = s.lock.readers + s.lock.rreleased
  writer : s.lock.wgrants.length = s.lock.writer.toNat + s.lock.wreleased
  rstranded : s.lock.rwait ≠ [] → s.lock.writer = true ∨ s.lock.wwait ≠ []
  wstranded : s.lock.wwait ≠ [] → s.lock.writer = true ∨ 0 < s.lock.readers
  arrival : s.lock.warrived = s.lock.wgrants ++ s.lock.wwait.map Cell.call
  overtaken : ∀ r ∈ s.lock.rgrants, ∀ c ∈ s.lock.wwait, r < c.call
  attended : Attended s

/-- **Over every run.** -/
theorem reachable_orderly {s : State} (hr : Reachable system s) : Orderly s := by
  have h : Inv s := by
    refine Reachable.invariant ?_ ?_ hr
    · rintro s rfl
      exact inv_init
    · intro s a t _ h hs
      exact h.step hs
  constructor
  case exclusive =>
    rintro ⟨hw, hpos⟩
    rw [h.core.exclusive hw] at hpos
    exact absurd hpos (Nat.lt_irrefl 0)
  case readers => exact h.core.readers.symm
  case writer => exact h.core.writer.symm
  case rstranded => exact h.core.rfree
  case wstranded => exact h.core.wfree
  case arrival => exact h.core.fifo
  case overtaken => exact h.core.behind
  case attended => exact h.attended

/-- A writer holds the lock, a reader and then a writer queue; the second writer has it first. -/
theorem reachable_orderly_handedOver : ∃ s, Reachable system s ∧ Orderly s ∧
    s.lock.wgrants = [0, 2] ∧ s.lock.rgrants = [1] ∧ s.lock.readers = 1 := by
  have hr := reachable_of_run system
    [.lock 0, .rlock 1, .lock 2, .unlock 0, .fiber 0, .fiber 0, .resume 2, .fiber 2, .unlock 2]
    rfl rfl
  exact ⟨_, hr, reachable_orderly hr, rfl, rfl, rfl⟩

end Stackweave.Sync.RWMutex
