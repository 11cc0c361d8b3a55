import Mathlib.Data.Int.Notation
import Mathlib.Data.List.Nodup
import Mathlib.Logic.Function.Basic
import Stackweave.LinkedList
import Stackweave.Transition

/-!
# The global run-queue (`mn_sched_runq.c.inc`)

The queue as it is in memory: `g->next` pointers, a head, a tail and the counters. A step is
the locked section of `runloom_mn_global_runq_push`, `_pull` or `_repin`. The number of hubs
is fixed. `entries` is history: the gs that were pushed and not pulled, in push order.
-/

namespace Stackweave.Runq

open Transition LinkedList Function

/-- `pin g` is `g->pin_hub1`: 0, or the hub plus one. -/
structure State where
  hubCount : ℕ
  pin : ℕ → ℕ
  next : ℕ → Option ℕ
  head : Option ℕ
  tail : Option ℕ
  len : ℤ
  unpinnedLen : ℤ
  /-- `runq_pinned_n` of each hub -/
  pinnedN : ℕ → ℤ
  entries : List ℕ

/-- An empty queue; the gs have any pins. -/
def start (hubCount : ℕ) (pin : ℕ → ℕ) (next : ℕ → Option ℕ) : State :=
  { hubCount := hubCount, pin := pin, next := next, head := none, tail := none, len := 0
    unpinnedLen := 0, pinnedN := fun _ => 0, entries := [] }

/-- Count `d` for an entry with this pin. -/
def State.count (s : State) (pin1 : ℕ) (d : ℤ) : State :=
  if pin1 = 0 then { s with unpinnedLen := s.unpinnedLen + d }
  else if pin1 - 1 < s.hubCount then
    { s with pinnedN := Function.update s.pinnedN (pin1 - 1) (s.pinnedN (pin1 - 1) + d) }
  else s

/-- Link `g` behind the tail. -/
def State.link (s : State) (g : ℕ) : State :=
  let s := { s with next := Function.update s.next g none, entries := s.entries ++ [g] }
  let s := match s.tail with
    | some t => { s with next := Function.update s.next t (some g) }
    | none => { s with head := some g }
  { s with tail := some g, len := s.len + 1 }

/-- `runloom_mn_global_runq_push` -/
def push (s : State) (g : ℕ) : State := (s.link g).count (s.pin g) 1

/-- The hub may take the g; `want` is `hub_id + 1`. -/
def mayTake (pin : ℕ → ℕ) (hub : ℤ) (g : ℕ) : Bool :=
  pin g = 0 ∨ (pin g : ℤ) = hub + 1

/-- Take `g`, which comes after `prev`, out of the list. -/
def State.unlink (s : State) (prev : Option ℕ) (g : ℕ) : State :=
  let after := s.next g
  let s := match prev with
    | none => { s with head := after }
    | some q => { s with next := Function.update s.next q after }
  let s := if after = none then { s with tail := prev } else s
  { s with next := Function.update s.next g none, entries := s.entries.erase g }

/-- `runloom_mn_global_runq_pull`; `none` when the walk has not ended after `turns` turns. -/
def pull (turns : ℕ) (s : State) (hub : ℤ) : Option (Option ℕ × State) :=
  if s.len = 0 then some (none, s)
  else
    match walk s.next (mayTake s.pin hub) turns none s.head with
    | none => none
    | some (_, none) => some (none, s)
    | some (prev, some g) =>
      let t := { s.unlink prev g with len := s.len - 1 }
      some (some g, t.count (s.pin g) (-1))

/-- `runloom_mn_global_runq_repin` -/
def repin (turns : ℕ) (s : State) (g pin1 : ℕ) : Option State :=
  match walk s.next (· = g) turns none s.head with
  | none => none
  | some (_, found) =>
    let t :=
      -- `runloom_hubs != NULL`
      if found.isSome ∧ s.pin g ≠ pin1 ∧ s.hubCount ≠ 0 then (s.count (s.pin g) (-1)).count pin1 1
      else s
    some { t with pin := Function.update t.pin g pin1 }

inductive Action
  | push (g : ℕ)
  | pull (hub : ℤ) (turns : ℕ)
  | repin (g pin1 turns : ℕ)

/-- Only the one that moved the g to QUEUED pushes it, so it is not queued yet. The only caller
of `repin`, `runloom_mn_pin_for_wake`, refuses when there are no hubs. -/
@[grind =]
def step (s : State) : Action → Option State
  | .push g => if g ∈ s.entries then none else some (push s g)
  | .pull hub turns => (pull turns s hub).map Prod.snd
  | .repin g pin1 turns => if s.hubCount = 0 then none else repin turns s g pin1

def system (hubCount : ℕ) : System State Action where
  init s := ∃ pin next, s = start hubCount pin next
  step := step

/-! ## What is to hold -/

/-- The number of queued entries with this pin. -/
def State.pinned (s : State) (pin1 : ℕ) : ℕ :=
  s.entries.countP fun g => s.pin g = pin1

structure Accounts (s : State) : Prop where
  len : s.len = s.entries.length
  unpinned : s.unpinnedLen = s.pinned 0
  pinned : ∀ h < s.hubCount, s.pinnedN h = s.pinned (h + 1)
  tail : s.tail = s.entries.getLast?
  linked : Leads s.next s.head s.entries

/-- What a pull by `hub` is to return and to leave. -/
def Pulled (s : State) (hub : ℤ) (t : State) : Option ℕ → Prop
  | none => (∀ g ∈ s.entries, mayTake s.pin hub g = false) ∧ t.entries = s.entries
  | some g => mayTake s.pin hub g = true ∧ ∃ before after,
    s.entries = before ++ g :: after ∧ (∀ x ∈ before, mayTake s.pin hub x = false) ∧
      t.entries = before ++ after

/-! ## The counters -/

/-- The counter of the entries with this pin. -/
def State.counter (s : State) (pin1 : ℕ) : ℤ :=
  if pin1 = 0 then s.unpinnedLen else s.pinnedN (pin1 - 1)

theorem count_frame (s : State) (pin1 : ℕ) (d : ℤ) :
    ∃ u n, s.count pin1 d = { s with unpinnedLen := u, pinnedN := n } := by
  unfold State.count
  split
  · exact ⟨_, s.pinnedN, rfl⟩
  · split
    · exact ⟨s.unpinnedLen, _, rfl⟩
    · exact ⟨s.unpinnedLen, s.pinnedN, rfl⟩

theorem count_counter (s : State) {p q : ℕ} (d : ℤ) (hp : p ≤ s.hubCount) :
    (s.count q d).counter p = s.counter p + if q = p then d else 0 := by
  unfold State.count
  split
  · next hq =>
    subst hq
    by_cases h0 : p = 0
    · subst h0
      rfl
    · rw [if_neg (Ne.symm h0), Int.add_zero]
      simp only [State.counter, h0, if_false]
  · next hq =>
    split
    · next hlt =>
      by_cases h0 : p = 0
      · subst h0
        rw [if_neg hq, Int.add_zero]
        rfl
      · simp only [State.counter, h0, if_false]
        by_cases hqp : q = p
        · subst hqp
          rw [update_self, if_pos rfl]
        · rw [update_of_ne (by omega), if_neg hqp, Int.add_zero]
    · next hge => rw [if_neg (by omega), Int.add_zero]

def Counted (s : State) : Prop := ∀ p ≤ s.hubCount, s.counter p = s.pinned p

/-- The entries, the links and the tail, without the counters of the pins. -/
structure Listed (s : State) : Prop where
  nodup : s.entries.Nodup
  len : s.len = s.entries.length
  tail : s.tail = s.entries.getLast?
  linked : Leads s.next s.head s.entries

variable {s : State} {g turns : ℕ}

theorem Listed.of_eq {t : State} (h : Listed s) (he : t.entries = s.entries)
    (hlen : t.len = s.len) (htail : t.tail = s.tail) (hnext : t.next = s.next)
    (hhead : t.head = s.head) : Listed t := by
  constructor
  · rw [he]; exact h.nodup
  · rw [hlen, he]; exact h.len
  · rw [htail, he]; exact h.tail
  · rw [hnext, hhead, he]; exact h.linked

theorem Listed.count (h : Listed s) (pin1 : ℕ) (d : ℤ) : Listed (s.count pin1 d) := by
  obtain ⟨u, n, hcount⟩ := count_frame s pin1 d
  rw [hcount]
  exact h.of_eq rfl rfl rfl rfl rfl

theorem accounts (hl : Listed s) (hc : Counted s) : Accounts s := by
  refine ⟨hl.len, hc 0 (Nat.zero_le _), fun h hlt => ?_, hl.tail, hl.linked⟩
  exact hc (h + 1) hlt

/-! ## Push -/

theorem link_frame (s : State) (g : ℕ) : ∃ next head, s.link g =
    { s with
      next := next, head := head, tail := some g, len := s.len + 1
      entries := s.entries ++ [g] } := by
  unfold State.link
  dsimp only
  split
  · exact ⟨_, s.head, rfl⟩
  · exact ⟨_, some g, rfl⟩

theorem link_listed (h : Listed s) (hg : g ∉ s.entries) :
    Listed (s.link g) := by
  have hnodup : (s.entries ++ [g]).Nodup := by
    rw [List.nodup_append]
    refine ⟨h.nodup, List.nodup_singleton g, fun x hx y hy => ?_⟩
    rw [List.mem_singleton.mp hy]
    exact fun he => hg (he ▸ hx)
  have hlen : s.len + 1 = ((s.entries ++ [g]).length : ℤ) := by
    rw [h.len, List.length_append]
    rfl
  have hstore : Leads (update s.next g none) s.head s.entries := h.linked.store hg
  unfold State.link
  rcases List.eq_nil_or_concat s.entries with hnil | ⟨l, t, hcons⟩
  · have htail : s.tail = none := by rw [h.tail, hnil]; rfl
    simp only [htail]
    refine ⟨hnodup, hlen, List.getLast?_concat.symm, ?_⟩
    rw [hnil]
    exact ⟨rfl, update_self ..⟩
  · rw [List.concat_eq_append] at hcons
    have htail : s.tail = some t := by rw [h.tail, hcons, List.getLast?_concat]
    simp only [htail]
    refine ⟨hnodup, hlen, List.getLast?_concat.symm, ?_⟩
    have hnd := h.nodup
    rw [hcons] at hstore hg hnd ⊢
    rw [List.nodup_append] at hnd
    have ht : t ∉ l := fun hl => hnd.2.2 t hl t (List.mem_singleton_self t) rfl
    exact hstore.append ht hg (update_self ..)

theorem push_listed (h : Listed s) (hg : g ∉ s.entries) :
    Listed (push s g) := (link_listed h hg).count _ _

theorem push_counted (h : Counted s) : Counted (push s g) := by
  obtain ⟨next, head, hlink⟩ := link_frame s g
  obtain ⟨u, n, hcount⟩ := count_frame (s.link g) (s.pin g) 1
  have hpinned : ∀ p, (push s g).pinned p = s.pinned p + if s.pin g = p then 1 else 0 := by
    intro p
    rw [push, hcount, hlink, State.pinned, List.countP_append, List.countP_singleton]
    simp only [State.pinned, decide_eq_true_eq]
  intro p hp
  have hle : p ≤ s.hubCount := by
    rw [push, hcount, hlink] at hp
    exact hp
  have hcounter : (s.link g).counter p = s.counter p := by rw [hlink]; rfl
  rw [push, count_counter _ _ (by rw [hlink]; exact hle), hcounter, h p hle, ← push, hpinned p]
  split <;> simp

/-! ## Pull -/

section Unlink

variable {s : State} {before after : List ℕ} {g : ℕ}

theorem unlink_first (s : State) (g : ℕ) : s.unlink none g =
    { s with
      head := s.next g, next := update s.next g none
      tail := if s.next g = none then none else s.tail, entries := s.entries.erase g } := by
  dsimp only [State.unlink]
  split <;> rfl

theorem unlink_after (s : State) (q g : ℕ) : s.unlink (some q) g =
    { s with
      next := update (update s.next q (s.next g)) g none
      tail := if s.next g = none then some q else s.tail, entries := s.entries.erase g } := by
  dsimp only [State.unlink]
  split <;> rfl

/-- What the unlinking leaves alone. -/
theorem unlink_frame (s : State) (prev : Option ℕ) (g : ℕ) : ∃ next head tail, s.unlink prev g =
    { s with next := next, head := head, tail := tail, entries := s.entries.erase g } := by
  cases prev with
  | none => exact ⟨_, _, _, unlink_first s g⟩
  | some q => exact ⟨_, s.head, _, unlink_after s q g⟩

theorem erase_middle (hs : s.entries = before ++ g :: after) (hnd : s.entries.Nodup) :
    s.entries.erase g = before ++ after := by
  rw [hs] at hnd ⊢
  have hg : g ∉ before := fun hb =>
    (List.nodup_append.mp hnd).2.2 g hb g List.mem_cons_self rfl
  rw [List.erase_append_right _ hg, List.erase_cons_head]

/-- The last entry is the taken one, and then the tail moves back. -/
theorem tail_of_unlink (h : Listed s) (hs : s.entries = before ++ g :: after) :
    (if s.next g = none then before.getLast? else s.tail) = (before ++ after).getLast? := by
  have hnext : s.next g = after.head? := by
    have hlinked := h.linked
    rw [hs] at hlinked
    exact hlinked.next_of_append.head
  rw [hnext, h.tail, hs]
  cases after with
  | nil => rw [List.head?_nil, if_pos rfl, List.append_nil]
  | cons x after =>
    rw [List.head?_cons, if_neg (by rintro ⟨⟩), List.getLast?_append, List.getLast?_append,
      List.getLast?_cons_cons]

theorem unlink_listed (h : Listed s) (hs : s.entries = before ++ g :: after) :
    Listed { s.unlink before.getLast? g with len := s.len - 1 } := by
  have hentries : s.entries.erase g = before ++ after := erase_middle hs h.nodup
  have hnd := h.nodup
  have hlinked := h.linked
  have hlen : s.len - 1 = ((before ++ after).length : ℤ) := by
    rw [h.len, hs, List.length_append, List.length_append, List.length_cons]
    omega
  have htail := tail_of_unlink h hs
  have hg : g ∉ before ++ after := by
    rw [← hentries, hnd.mem_erase_iff]
    exact fun he => he.1 rfl
  have hnodup : (before ++ after).Nodup := hentries ▸ hnd.erase g
  rw [hs] at hnd hlinked
  rcases List.eq_nil_or_concat before with hnil | ⟨l, q, hcons⟩
  · subst hnil
    have hafter : Leads s.next (s.next g) after := hlinked.next_of_append
    rw [List.getLast?_nil, unlink_first, hentries]
    exact ⟨hnodup, hlen, htail, hafter.store hg⟩
  · rw [List.concat_eq_append] at hcons
    subst hcons
    rw [List.append_assoc, List.singleton_append] at hnd hlinked
    have hskip := hlinked.unlink hnd
    rw [List.getLast?_concat] at htail
    rw [List.getLast?_concat, unlink_after, hentries]
    refine ⟨hnodup, hlen, htail, Leads.store ?_ hg⟩
    rw [List.append_assoc, List.singleton_append]
    exact hskip

end Unlink

theorem pinned_erase (hg : g ∈ s.entries) (p : ℕ) :
    ((s.entries.erase g).countP fun x => s.pin x = p) + (if s.pin g = p then 1 else 0) =
      s.pinned p := by
  rw [State.pinned, (List.perm_cons_erase hg).countP_eq, List.countP_cons]
  simp only [decide_eq_true_eq]

theorem pull_counted {prev : Option ℕ} (h : Counted s) (hg : g ∈ s.entries) :
    Counted (State.count { s.unlink prev g with len := s.len - 1 } (s.pin g) (-1)) := by
  obtain ⟨next, head, tail, hunlink⟩ := unlink_frame s prev g
  rw [hunlink]
  generalize ht : { s with
    next := next, head := head, tail := tail, len := s.len - 1
    entries := s.entries.erase g : State } = t
  obtain ⟨u, n, hcount⟩ := count_frame t (s.pin g) (-1)
  intro p hp
  have hle : p ≤ t.hubCount := by rw [hcount] at hp; exact hp
  have hcounter : t.counter p = s.pinned p := by
    rw [← h p (by rw [← ht] at hle; exact hle), ← ht]
    rfl
  have hpinned : (t.count (s.pin g) (-1)).pinned p =
      (s.entries.erase g).countP fun x => s.pin x = p := by
    rw [hcount, ← ht]
    rfl
  have herase := pinned_erase hg p
  rw [count_counter t _ hle, hcounter, hpinned]
  split at herase
  · next he => rw [if_pos he]; omega
  · next he => rw [if_neg he]; omega

/-- The loop finds the first entry that the hub may take, if there is one. -/
theorem pull_spec (h : Listed s) (hub : ℤ) (ht : s.entries.length ≤ turns) :
    ∃ r t, pull turns s hub = some (r, t) ∧ Pulled s hub t r ∧ Listed t ∧
      (Counted s → Counted t) := by
  cases hfind : s.entries.find? (mayTake s.pin hub) with
  | none =>
    have hnone : ∀ g ∈ s.entries, mayTake s.pin hub g = false := by
      intro g hg
      simpa using List.find?_eq_none.mp hfind g hg
    refine ⟨none, s, ?_, ⟨hnone, rfl⟩, h, id⟩
    rw [pull, walk_ends h.linked hnone ht]
    split <;> rfl
  | some g =>
    obtain ⟨hg, before, after, hs, hbefore⟩ := List.find?_eq_some_iff_append.mp hfind
    have hfirst : ∀ x ∈ before, mayTake s.pin hub x = false := by
      intro x hx
      simpa using hbefore x hx
    have hmem : g ∈ s.entries := List.mem_of_find?_eq_some hfind
    have hlen : s.len ≠ 0 := by
      rw [h.len, hs, List.length_append, List.length_cons]
      omega
    have hturns : before.length < turns := by
      rw [hs, List.length_append, List.length_cons] at ht
      omega
    have hlinked := h.linked
    rw [hs] at hlinked
    have hwalk : walk s.next (mayTake s.pin hub) turns none s.head =
        some (before.getLast?.or none, some g) := walk_found hlinked hfirst hg hturns
    rw [Option.or_none] at hwalk
    refine ⟨some g, _, ?_, ⟨hg, before, after, hs, hfirst, ?_⟩, (unlink_listed h hs).count _ _,
      fun hc => pull_counted hc hmem⟩
    · rw [pull, if_neg hlen, hwalk]
    · obtain ⟨u, n, hcount⟩ := count_frame { s.unlink before.getLast? g with len := s.len - 1 }
        (s.pin g) (-1)
      obtain ⟨next, head, tail, hunlink⟩ := unlink_frame s before.getLast? g
      rw [hcount, hunlink]
      exact erase_middle hs h.nodup

theorem pull_mono {hub : ℤ} {m : ℕ} {res : Option ℕ × State}
    (h : pull turns s hub = some res) (hm : turns ≤ m) : pull m s hub = some res := by
  unfold pull at h ⊢
  split at h
  · next hlen => rw [if_pos hlen, h]
  · next hlen =>
    rw [if_neg hlen]
    split at h
    · cases h
    · next hw => rw [walk_mono hw hm, h]
    · next hw =>
      rw [walk_mono hw hm]
      exact h

/-! ## Repin -/

/-- Among the entries only `g` changes its class. -/
theorem pinned_repin (hnd : s.entries.Nodup) (hg : g ∈ s.entries) (pin1 p : ℕ) :
    (s.entries.countP fun x => update s.pin g pin1 x = p) +
      (if s.pin g = p then 1 else 0) = s.pinned p + if pin1 = p then 1 else 0 := by
  have hothers : ((s.entries.erase g).countP fun x => update s.pin g pin1 x = p) =
      (s.entries.erase g).countP fun x => s.pin x = p := by
    refine List.countP_congr fun x hx => ?_
    have hne : x ≠ g := (hnd.mem_erase_iff.mp hx).1
    rw [update_of_ne hne]
  rw [(List.perm_cons_erase hg).countP_eq, List.countP_cons, hothers, ← pinned_erase hg p]
  simp only [update_self, decide_eq_true_eq]
  omega

theorem pinned_absent (hg : g ∉ s.entries) (pin1 p : ℕ) :
    (s.entries.countP fun x => update s.pin g pin1 x = p) = s.pinned p := by
  refine List.countP_congr fun x hx => ?_
  have hne : x ≠ g := fun he => hg (he ▸ hx)
  rw [update_of_ne hne]

theorem walk_finds (h : Listed s) (g : ℕ) (ht : s.entries.length ≤ turns) :
    ∃ prev found, walk s.next (· = g) turns none s.head = some (prev, found) ∧
      (found.isSome ↔ g ∈ s.entries) := by
  by_cases hg : g ∈ s.entries
  · obtain ⟨before, after, hs⟩ := List.append_of_mem hg
    have hlinked := h.linked
    have hnd := h.nodup
    rw [hs] at hlinked hnd ht
    have hbefore : ∀ x ∈ before, decide (x = g) = false := by
      intro x hx
      have hne := (List.nodup_append.mp hnd).2.2 x hx g List.mem_cons_self
      exact decide_eq_false hne
    rw [List.length_append, List.length_cons] at ht
    exact ⟨_, _, walk_found hlinked hbefore (decide_eq_true rfl) (by omega), by simp [hg]⟩
  · have hall : ∀ x ∈ s.entries, decide (x = g) = false := by
      intro x hx
      exact decide_eq_false fun he => hg (he ▸ hx)
    exact ⟨_, _, walk_ends h.linked hall ht, by simp [hg]⟩

theorem repin_spec (h : Listed s) (hc : Counted s) (hhubs : s.hubCount ≠ 0)
    (g pin1 : ℕ) (ht : s.entries.length ≤ turns) :
    ∃ t, repin turns s g pin1 = some t ∧ Listed t ∧ Counted t ∧ t.entries = s.entries := by
  obtain ⟨prev, found, hwalk, hfound⟩ := walk_finds h g ht
  obtain ⟨u, n, hcount⟩ := count_frame s (s.pin g) (-1)
  obtain ⟨u', n', hcount'⟩ := count_frame (s.count (s.pin g) (-1)) pin1 1
  unfold repin
  rw [hwalk]
  dsimp only
  by_cases hmove : found.isSome ∧ s.pin g ≠ pin1 ∧ s.hubCount ≠ 0
  · rw [if_pos hmove]
    have hframe : ((s.count (s.pin g) (-1)).count pin1 1).entries = s.entries ∧
        ((s.count (s.pin g) (-1)).count pin1 1).pin = s.pin ∧
        ((s.count (s.pin g) (-1)).count pin1 1).hubCount = s.hubCount := by
      rw [hcount', hcount]
      exact ⟨rfl, rfl, rfl⟩
    refine ⟨_, rfl, ((h.count _ _).count _ _).of_eq rfl rfl rfl rfl rfl, fun p hp => ?_, hframe.1⟩
    have hle : p ≤ s.hubCount := hframe.2.2 ▸ hp
    have hcounter : ((s.count (s.pin g) (-1)).count pin1 1).counter p =
        s.pinned p + (if s.pin g = p then -1 else 0) + if pin1 = p then 1 else 0 := by
      rw [count_counter _ _ (by rw [hcount]; exact hle), count_counter s _ hle, hc p hle]
    have hmoved := pinned_repin h.nodup (hfound.mp hmove.1) pin1 p
    have hpinned : ((s.count (s.pin g) (-1)).count pin1 1).entries.countP (fun x =>
        update ((s.count (s.pin g) (-1)).count pin1 1).pin g pin1 x = p) =
        s.entries.countP fun x => update s.pin g pin1 x = p := by
      rw [hframe.1, hframe.2.1]
    refine hcounter.trans (Eq.trans ?_ (congrArg Nat.cast hpinned.symm))
    split_ifs at hmoved ⊢ <;> omega
  · rw [if_neg hmove]
    refine ⟨_, rfl, h.of_eq rfl rfl rfl rfl rfl, fun p hp => ?_, rfl⟩
    have hsame : (s.entries.countP fun x => update s.pin g pin1 x = p) = s.pinned p := by
      by_cases hg : g ∈ s.entries
      · have hpin : s.pin g = pin1 := by
          by_contra hne
          exact hmove ⟨hfound.mpr hg, hne, hhubs⟩
        rw [← hpin, update_eq_self]
        rfl
      · exact pinned_absent hg pin1 p
    exact (hc p hp).trans (congrArg _ hsame.symm)

theorem repin_mono {t : State} {pin1 m : ℕ} (h : repin turns s g pin1 = some t)
    (hm : turns ≤ m) : repin m s g pin1 = some t := by
  unfold repin at h ⊢
  split at h
  · cases h
  · next hw =>
    rw [walk_mono hw hm]
    exact h

/-! ## Every sequence of operations -/

structure Inv (s : State) : Prop where
  listed : Listed s
  counted : Counted s

theorem step_inv {t : State} {a : Action} (h : Inv s) (hs : step s a = some t) : Inv t := by
  cases a with
  | push g =>
    simp only [step] at hs
    split at hs
    · cases hs
    · next hg =>
      cases hs
      exact ⟨push_listed h.listed hg, push_counted h.counted⟩
  | pull hub turns =>
    simp only [step, Option.map_eq_some_iff] at hs
    obtain ⟨⟨r, t'⟩, hpull, rfl⟩ := hs
    obtain ⟨r', t', hpull', -, hlisted, hcounted⟩ :=
      pull_spec h.listed hub (Nat.le_max_right turns s.entries.length)
    rw [pull_mono hpull (Nat.le_max_left _ _)] at hpull'
    cases hpull'
    exact ⟨hlisted, hcounted h.counted⟩
  | repin g pin1 turns =>
    simp only [step] at hs
    split at hs
    · cases hs
    · next hhubs =>
      obtain ⟨t', hrepin, hlisted, hcounted, -⟩ :=
        repin_spec h.listed h.counted hhubs g pin1 (Nat.le_max_right turns s.entries.length)
      rw [repin_mono hs (Nat.le_max_left _ _)] at hrepin
      cases hrepin
      exact ⟨hlisted, hcounted⟩

theorem reachable_inv {hubCount : ℕ} (h : Reachable (system hubCount) s) : Inv s := by
  refine h.invariant (P := Inv) ?_ fun s a t _ hi hs => step_inv hi hs
  rintro s ⟨pin, next, rfl⟩
  refine ⟨⟨List.nodup_nil, rfl, rfl, rfl⟩, fun p _ => ?_⟩
  unfold State.counter
  split <;> rfl

/-- After every sequence of operations the counters, the links and the tail are those of the
queued entries, and a pull ends and takes the first entry that the hub may take. -/
theorem reachable_accounts {hubCount : ℕ} {s : State} (h : Reachable (system hubCount) s) :
    Accounts s ∧ ∀ hub : ℤ,
      (∀ turns, s.entries.length ≤ turns → (pull turns s hub).isSome) ∧
      ∀ turns r t, pull turns s hub = some (r, t) → Pulled s hub t r ∧ Accounts t := by
  have hi := reachable_inv h
  refine ⟨accounts hi.listed hi.counted, fun hub => ⟨fun turns hturns => ?_, fun turns r t hp => ?_⟩⟩
  · obtain ⟨r, t, hpull, -⟩ := pull_spec hi.listed hub hturns
    rw [hpull]
    rfl
  · obtain ⟨r', t', hpull, hpulled, hlisted, hcounted⟩ :=
      pull_spec hi.listed hub (Nat.le_max_right turns s.entries.length)
    rw [pull_mono hp (Nat.le_max_left _ _)] at hpull
    cases hpull
    exact ⟨hpulled, accounts hlisted (hcounted hi.counted)⟩

/-- A pinned entry between two others is passed over, repinned and pulled. -/
theorem reachable_accounts_repinned : ∃ s t, Reachable (system 2) s ∧
    s.entries = [5, 7, 6] ∧ s.pin 7 = 2 ∧ pull 3 s 1 = some (some 7, t) ∧
    Accounts t ∧ t.entries = [5, 6] ∧ t.tail = some 6 := by
  have hr := reachable_of_run (system 2)
    [.push 4, .push 5, .push 7, .push 6, .repin 5 1 4, .pull 0 4, .repin 6 1 4, .repin 7 2 4]
    ⟨fun _ => 0, fun _ => none, rfl⟩ rfl
  exact ⟨_, _, hr, rfl, rfl, rfl, ((reachable_accounts hr).2 1).2 3 _ _ rfl |>.2, rfl, rfl⟩

end Stackweave.Runq
