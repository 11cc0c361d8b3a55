import Mathlib.Data.List.Perm.Subperm
import Stackweave.Monkey.Backend

/-!
# The jobs of the thread pool (`monkey/_base.py`)

The pool with its history: the shard of each job, the jobs that were put before the
sentinel of their shard, the jobs that workers took, what their `fn` came to, and
which worker consumed the sentinel of which shard. Workers steal sentinels too, so a
shard may lose its own worker while it still has jobs; what keeps such a job from
being left behind is that there are as many sentinels as workers, and that a shard's
sentinel comes out after the jobs put before it.
-/

namespace Stackweave.Monkey.Backend

open Transition Function

variable {V : Type}

structure Log (V : Type) where
  s : State V
  home : ℕ → ℕ
  early : List ℕ
  begun : List ℕ
  ended : List (ℕ × V)
  /-- a worker and the shard whose sentinel it got -/
  took : List (ℕ × ℕ)

def Log.init (V : Type) (size : ℕ) : Log V :=
  { s := Backend.init V size, home := fun _ => 0, early := [], begun := [], ended := [], took := [] }

/-- The number of sentinels that `fini` has put, on the first shards. -/
def State.put (s : State V) : ℕ := s.fini.getD 0

/-- The shard and the item that the next step of the worker gets. -/
def State.popped (s : State V) (w : ℕ) : Option (ℕ × Item) :=
  match s.worker w with
  | .idle => (s.shards w).head?.map fun x => (w, x)
  | .steal k =>
    if k < s.size then (s.shards ((w + k) % s.size)).head?.map fun x => ((w + k) % s.size, x)
    else none
  | _ => none

@[grind =]
def Log.note (l : Log V) : Action V → Log V
  | .submitter n =>
    match l.s.submit n with
    | .enqueue i =>
      { l with
        home := Function.update l.home n i
        early := if l.s.put ≤ i then l.early ++ [n] else l.early }
    | _ => l
  | .worker w =>
    match l.s.popped w with
    | some (_, .job n) => { l with begun := l.begun ++ [n] }
    | some (i, .shutdown) => { l with took := l.took ++ [(w, i)] }
    | none => l
  | .finish w v =>
    match l.s.worker w with
    | .run n => { l with ended := l.ended ++ [(n, v)] }
    | _ => l
  | _ => l

def Log.step (l : Log V) (a : Action V) : Option (Log V) :=
  (Backend.step l.s a).map fun t => { l.note a with s := t }

def logged (V : Type) (size : ℕ) : System (Log V) (Action V) where
  init l := l = .init V size
  step := Log.step

/-! ### What a step can do -/

/-- The shard that a submit is about to use. -/
def SubmitPc.shard : SubmitPc V → Option ℕ
  | .advance i | .build i | .enqueue i => some i
  | _ => none

/-- The job has been put. -/
def SubmitPc.sent : SubmitPc V → Bool
  | .check | .park | .releasing | .returned _ => true
  | _ => false

/-- The worker looks for an item. -/
def WorkerPc.looking : WorkerPc → Bool
  | .idle | .steal _ => true
  | _ => false

/-- The steps of the pool, with what the code has checked in each. -/
inductive Move (l : Log V) : Log V → Prop
  | choose {n : ℕ} (hn : l.s.submit n = .fresh) :
    Move l { l with s := l.s.submitTo n (.advance l.s.cursor) }
  | turn {n i : ℕ} (hn : l.s.submit n = .advance i) :
    Move l { l with s := { l.s with cursor := (i + 1) % l.s.size }.submitTo n (.build i) }
  | build {n i : ℕ} (hn : l.s.submit n = .build i) :
    Move l { l with s := l.s.submitTo n (.enqueue i) }
  | put {n i : ℕ} (hn : l.s.submit n = .enqueue i) :
    Move l { l with
      s := (l.s.setShard i (l.s.shards i ++ [Item.job n])).submitTo n .check
      home := Function.update l.home n i
      early := if l.s.put ≤ i then l.early ++ [n] else l.early }
  | wait {n : ℕ} {b : ℕ → Bool} {p : SubmitPc V} (hn : (l.s.submit n).sent = true)
      (hp : p = .check ∨ p = .park ∨ (p = .releasing ∧ l.s.done n = true)) :
    Move l { l with s := { l.s with wake := b }.submitTo n p }
  | return {n : ℕ} (hn : l.s.submit n = .releasing) :
    Move l { l with s := l.s.submitTo n (.returned (l.s.outcome n)) }
  | look {w : ℕ} {p : WorkerPc} (hw : w < l.s.size) (hold : (l.s.worker w).looking = true)
      (hp : p.looking = true) : Move l { l with s := l.s.workerTo w p }
  | take {w i n : ℕ} {xs : List Item} (hw : w < l.s.size)
      (hold : (l.s.worker w).looking = true) (hi : i < l.s.size)
      (hq : l.s.shards i = .job n :: xs) :
    Move l { l with s := (l.s.setShard i xs).workerTo w (.run n), begun := l.begun ++ [n] }
  | exit {w i : ℕ} {xs : List Item} (hw : w < l.s.size)
      (hold : (l.s.worker w).looking = true) (hi : i < l.s.size)
      (hq : l.s.shards i = .shutdown :: xs) :
    Move l { l with s := (l.s.setShard i xs).workerTo w .exited, took := l.took ++ [(w, i)] }
  | finish {w n : ℕ} {v : V} (hold : l.s.worker w = .run n) :
    Move l { l with
      s := { l.s with outcome := fun m => if m = n then some v else l.s.outcome m }.workerTo w
        (.publish n)
      ended := l.ended ++ [(n, v)] }
  | publish {w n : ℕ} (hold : l.s.worker w = .publish n) :
    Move l { l with
      s := { l.s with done := fun m => if m = n then true else l.s.done m }.workerTo w (.unpark n) }
  | unpark {w n : ℕ} (hold : l.s.worker w = .unpark n) :
    Move l { l with s := (l.s.setWake n true).workerTo w .idle }
  | finiStart (hf : l.s.fini = none) : Move l { l with s := { l.s with fini := some 0 } }
  | fini {i : ℕ} (hf : l.s.fini = some i) (hi : i < l.s.size) :
    Move l { l with
      s := { l.s.setShard i (l.s.shards i ++ [.shutdown]) with fini := some (i + 1) } }

theorem submitter_move {l : Log V} {t : State V} {n : ℕ} (hs : submitterStep l.s n = some t) :
    Move l { l.note (.submitter n) with s := t } := by
  unfold submitterStep at hs
  unfold Log.note
  dsimp only
  split at hs
  case h_1 i hn =>
    cases hs
    rw [hn]
    exact .turn hn
  case h_2 i hn =>
    cases hs
    rw [hn]
    exact .build hn
  case h_3 i hn =>
    cases hs
    rw [hn]
    exact .put hn
  case h_4 hn =>
    cases hs
    rw [hn]
    refine Move.wait (b := l.s.wake) (by rw [hn]; rfl) ?_
    split
    case isTrue hd => exact .inr (.inr ⟨rfl, hd⟩)
    case isFalse => exact .inr (.inl rfl)
  case h_5 hn =>
    obtain ⟨-, hs⟩ := Option.ite_none_right_eq_some.mp hs
    cases hs
    rw [hn]
    exact .wait (by rw [hn]; rfl) (.inl rfl)
  case h_6 hn =>
    cases hs
    rw [hn]
    exact .return hn
  case h_7 => cases hs

theorem worker_move {l : Log V} {t : State V} {w : ℕ} (hs : workerStep l.s w = some t) :
    Move l { l.note (.worker w) with s := t } := by
  unfold workerStep at hs
  obtain ⟨hw, hs⟩ := Option.ite_none_right_eq_some.mp hs
  have hpop : ∀ {i : ℕ} {x : Item} {xs : List Item}, (l.s.worker w).looking = true → i < l.s.size →
      l.s.shards i = x :: xs → l.s.popped w = some (i, x) →
      Move l { l.note (.worker w) with s := (l.s.setShard i xs).workerTo w x.start } := by
    intro i x xs hold hi hq hpopped
    unfold Log.note
    dsimp only
    rw [hpopped]
    cases x with
    | job n => exact .take hw hold hi hq
    | shutdown => exact .exit hw hold hi hq
  have hlook : ∀ {p : WorkerPc}, (l.s.worker w).looking = true → p.looking = true →
      l.s.popped w = none → Move l { l.note (.worker w) with s := l.s.workerTo w p } := by
    intro p hold hp hpopped
    unfold Log.note
    dsimp only
    rw [hpopped]
    exact .look hw hold hp
  split at hs
  case h_1 hold =>
    split at hs
    case h_1 hq =>
      cases hs
      exact hlook (by rw [hold]; rfl) rfl (by simp only [State.popped, hold, hq]; rfl)
    case h_2 x xs hq =>
      cases hs
      exact hpop (by rw [hold]; rfl) hw hq (by simp only [State.popped, hold, hq]; rfl)
  case h_2 k hold =>
    have hmod : (w + k) % l.s.size < l.s.size := Nat.mod_lt _ (Nat.lt_of_le_of_lt (Nat.zero_le w) hw)
    split at hs
    case isTrue hk =>
      split at hs
      case h_1 hq =>
        cases hs
        exact hlook (by rw [hold]; rfl) rfl (by simp only [State.popped, hold, hq, hk]; rfl)
      case h_2 x xs hq =>
        cases hs
        exact hpop (by rw [hold]; rfl) hmod hq (by simp only [State.popped, hold, hq, hk]; rfl)
    case isFalse hk =>
      cases hs
      exact hlook (by rw [hold]; rfl) rfl (by simp only [State.popped, hold, hk]; rfl)
  case h_3 n hold =>
    cases hs
    have hnote : l.note (.worker w) = l := by simp only [Log.note, State.popped, hold]
    rw [hnote]
    exact .publish hold
  case h_4 n hold =>
    cases hs
    have hnote : l.note (.worker w) = l := by simp only [Log.note, State.popped, hold]
    rw [hnote]
    exact .unpark hold
  case h_5 => cases hs

theorem step_move {l l' : Log V} {a : Action V} (hs : Log.step l a = some l') : Move l l' := by
  obtain ⟨t, ht, rfl⟩ := Option.map_eq_some_iff.mp hs
  cases a with
  | submit n =>
    dsimp only [step] at ht
    split at ht
    case h_1 hn =>
      cases ht
      exact .choose hn
    case h_2 => cases ht
  | submitter n => exact submitter_move ht
  | spurious n =>
    dsimp only [step] at ht
    split at ht
    case h_1 hn =>
      cases ht
      exact Move.wait (b := l.s.wake) (by rw [hn]; rfl) (.inl rfl)
    case h_2 => cases ht
  | worker w => exact worker_move ht
  | finish w v =>
    dsimp only [step] at ht
    split at ht
    case h_1 n hold =>
      cases ht
      simp only [Log.note, hold]
      exact .finish hold
    case h_2 => cases ht
  | fini =>
    dsimp only [step] at ht
    split at ht
    case h_1 hf =>
      cases ht
      exact .finiStart hf
    case h_2 i hf =>
      obtain ⟨hi, ht⟩ := Option.ite_none_right_eq_some.mp ht
      cases ht
      exact .fini hf hi

/-! ### Where a job is -/

structure Placed (l : Log V) : Prop where
  size : 0 < l.s.size
  cursor : l.s.cursor < l.s.size
  shard : ∀ n i, (l.s.submit n).shard = some i → i < l.s.size
  bound : ∀ i, l.s.size ≤ i → l.s.shards i = []
  unsent : ∀ n, (l.s.submit n).sent = false →
    n ∉ l.begun ∧ n ∉ l.early ∧ ∀ i, Item.job n ∉ l.s.shards i
  sent : ∀ n, (l.s.submit n).sent = true → l.home n < l.s.size ∧
    l.begun.count n + (l.s.shards (l.home n)).count (.job n) = 1 ∧
    ∀ i, i ≠ l.home n → Item.job n ∉ l.s.shards i

section Placed

variable {l : Log V}

/-- The job of a submit that moves on is where it was. -/
theorem Placed.submitTo (h : Placed l) {s' : State V} {n : ℕ} {p : SubmitPc V}
    (hcursor : s'.cursor < l.s.size) (hsize : s'.size = l.s.size) (hshards : s'.shards = l.s.shards)
    (hsubmit : s'.submit = fun m => if m = n then p else l.s.submit m)
    (hshard : ∀ i, p.shard = some i → i < l.s.size) (hsent : p.sent = (l.s.submit n).sent) :
    Placed { l with s := s' } := by
  have hall : ∀ m, (s'.submit m).sent = (l.s.submit m).sent := fun m => by
    rw [hsubmit]
    dsimp only
    split
    case isTrue hm => rw [hm, hsent]
    case isFalse => rfl
  refine ⟨?_, ?_, fun m i hm => ?_, fun i hi => ?_, fun m hm => ?_, fun m hm => ?_⟩
  all_goals dsimp only at *
  · rw [hsize]
    exact h.size
  · rw [hsize]
    exact hcursor
  · rw [hsize]
    rw [hsubmit] at hm
    dsimp only at hm
    split at hm
    case isTrue => exact hshard i hm
    case isFalse => exact h.shard m i hm
  · rw [hshards]
    exact h.bound i (hsize ▸ hi)
  · rw [hshards]
    exact h.unsent m (hall m ▸ hm)
  · rw [hshards, hsize]
    exact h.sent m (hall m ▸ hm)

theorem Placed.workerTo (h : Placed l) {s' : State V} {e : List (ℕ × V)}
    (hcursor : s'.cursor = l.s.cursor) (hsize : s'.size = l.s.size)
    (hshards : s'.shards = l.s.shards) (hsubmit : s'.submit = l.s.submit) :
    Placed { l with s := s', ended := e } := by
  refine ⟨?_, ?_, ?_, ?_, ?_, ?_⟩
  all_goals dsimp only
  · rw [hsize]
    exact h.size
  · rw [hsize, hcursor]
    exact h.cursor
  · rw [hsize, hsubmit]
    exact h.shard
  · rw [hsize, hshards]
    exact h.bound
  · rw [hsubmit, hshards]
    exact h.unsent
  · rw [hsubmit, hshards, hsize]
    exact h.sent

theorem Placed.put (h : Placed l) {n i : ℕ} (hn : l.s.submit n = .enqueue i) :
    Placed { l with
      s := (l.s.setShard i (l.s.shards i ++ [Item.job n])).submitTo n .check
      home := update l.home n i
      early := if l.s.put ≤ i then l.early ++ [n] else l.early } := by
  have hi := h.shard n i (by rw [hn]; rfl)
  obtain ⟨hbegun, hearly, hnot⟩ := h.unsent n (by rw [hn]; rfl)
  have hself : ((l.s.setShard i (l.s.shards i ++ [Item.job n])).submitTo n .check).submit n = .check :=
    if_pos rfl
  have hother : ∀ m, m ≠ n → ((l.s.setShard i (l.s.shards i ++ [Item.job n])).submitTo n .check).submit m =
      l.s.submit m := fun m hm => if_neg hm
  have hat : ((l.s.setShard i (l.s.shards i ++ [Item.job n])).submitTo n .check).shards i =
      l.s.shards i ++ [Item.job n] := if_pos rfl
  have hne : ∀ j, j ≠ i → ((l.s.setShard i (l.s.shards i ++ [Item.job n])).submitTo n .check).shards j =
      l.s.shards j := fun j hj => if_neg hj
  have hmem : ∀ j m, m ≠ n →
      (Item.job m ∈ ((l.s.setShard i (l.s.shards i ++ [Item.job n])).submitTo n .check).shards j ↔
        Item.job m ∈ l.s.shards j) := fun j m hm => by
    by_cases hj : j = i
    · subst hj
      rw [hat, List.mem_append, List.mem_singleton]
      exact or_iff_left fun he => hm (Item.job.inj he)
    · rw [hne j hj]
  refine ⟨h.size, h.cursor, fun m j hm => ?_, fun j hj => ?_, fun m hm => ?_, fun m hm => ?_⟩
  all_goals dsimp only at *
  · by_cases hmn : m = n
    · rw [hmn, hself] at hm
      cases hm
    · rw [hother m hmn] at hm
      exact h.shard m j hm
  · have hji : j ≠ i := fun he => absurd (he ▸ hj) (Nat.not_le.mpr hi)
    rw [hne j hji]
    exact h.bound j hj
  · have hmn : m ≠ n := by
      rintro rfl
      rw [hself] at hm
      cases hm
    rw [hother m hmn] at hm
    obtain ⟨h1, h2, h3⟩ := h.unsent m hm
    refine ⟨h1, ?_, fun j hj => h3 j ((hmem j m hmn).mp hj)⟩
    split
    · rw [List.mem_append, List.mem_singleton]
      exact fun he => he.elim h2 hmn
    · exact h2
  · by_cases hmn : m = n
    · subst hmn
      rw [update_self, hat, List.count_append, List.count_eq_zero_of_not_mem (hnot i),
        List.count_eq_zero_of_not_mem hbegun]
      refine ⟨hi, by simp, fun j hj => ?_⟩
      rw [hne j hj]
      exact hnot j
    · rw [hother m hmn] at hm
      obtain ⟨h1, h2, h3⟩ := h.sent m hm
      rw [update_of_ne hmn]
      refine ⟨h1, ?_, fun j hj hmj => h3 j hj ((hmem j m hmn).mp hmj)⟩
      by_cases hhome : l.home m = i
      · rw [hhome] at h2 ⊢
        rw [hat, List.count_append, ← h2]
        have : List.count (Item.job m) [Item.job n] = 0 :=
          List.count_eq_zero_of_not_mem fun he => hmn (Item.job.inj (List.mem_singleton.mp he))
        omega
      · rw [hne _ hhome]
        exact h2

/-- The head of a shard is taken. -/
theorem Placed.pop (h : Placed l) {i : ℕ} {x : Item} {xs : List Item} {s' : State V} {b : List ℕ}
    {k : List (ℕ × ℕ)} (hq : l.s.shards i = x :: xs)
    (hshards : s'.shards = fun j => if j = i then xs else l.s.shards j)
    (hsubmit : s'.submit = l.s.submit) (hsize : s'.size = l.s.size)
    (hcursor : s'.cursor = l.s.cursor)
    (hb : ∀ m, b.count m = l.begun.count m + if x = .job m then 1 else 0) :
    Placed { l with s := s', begun := b, took := k } := by
  have hsub : ∀ j m, Item.job m ∈ s'.shards j → Item.job m ∈ l.s.shards j := fun j m hm => by
    rw [hshards] at hm
    dsimp only at hm
    split at hm
    case isTrue hj =>
      rw [hj, hq]
      exact List.mem_cons_of_mem x hm
    case isFalse => exact hm
  have hcount : ∀ j m, (s'.shards j).count (.job m) + (if j = i ∧ x = .job m then 1 else 0) =
      (l.s.shards j).count (.job m) := fun j m => by
    rw [hshards]
    dsimp only
    by_cases hj : j = i
    · rw [if_pos hj, hj, hq, List.count_cons]
      by_cases hx : x = .job m
      · simp [hx]
      · simp [hx]
    · rw [if_neg hj]
      simp [hj]
  refine ⟨hsize ▸ h.size, ?_, fun m j hm => ?_, fun j hj => ?_, fun m hm => ?_, fun m hm => ?_⟩
  all_goals dsimp only at *
  · rw [hsize, hcursor]
    exact h.cursor
  · rw [hsize]
    rw [hsubmit] at hm
    exact h.shard m j hm
  · rw [hsize] at hj
    have hempty := h.bound j hj
    rw [hshards]
    dsimp only
    split
    case isTrue hji =>
      rw [hji, hq] at hempty
      cases hempty
    case isFalse => exact hempty
  · rw [hsubmit] at hm
    obtain ⟨h1, h2, h3⟩ := h.unsent m hm
    refine ⟨?_, h2, fun j hj => h3 j (hsub j m hj)⟩
    have hx : x ≠ .job m := by
      rintro rfl
      exact h3 i (by rw [hq]; exact List.mem_cons_self)
    refine List.count_eq_zero.mp ?_
    rw [hb m, if_neg hx, List.count_eq_zero_of_not_mem h1]
  · rw [hsubmit] at hm
    obtain ⟨h1, h2, h3⟩ := h.sent m hm
    refine ⟨hsize ▸ h1, ?_, fun j hj hmj => h3 j hj (hsub j m hmj)⟩
    have hc := hcount (l.home m) m
    rw [hb m]
    by_cases hx : x = .job m
    · have hhome : l.home m = i := by
        by_contra hne
        exact h3 i (Ne.symm hne) (by rw [hq, hx]; exact List.mem_cons_self)
      simp only [hhome, hx, and_self, if_true] at hc h2 ⊢
      omega
    · simp only [hx, and_false, if_false] at hc ⊢
      omega

theorem Placed.step (h : Placed l) {l' : Log V} (hm : Move l l') : Placed l' := by
  cases hm with
  | choose hn =>
    refine h.submitTo h.cursor rfl rfl rfl (fun i hi => ?_) (by rw [hn]; rfl)
    cases hi
    exact h.cursor
  | turn hn =>
    refine h.submitTo (Nat.mod_lt _ h.size) rfl rfl rfl (fun j hj => ?_) (by rw [hn]; rfl)
    cases hj
    exact h.shard _ _ (by rw [hn]; rfl)
  | build hn =>
    refine h.submitTo h.cursor rfl rfl rfl (fun j hj => ?_) (by rw [hn]; rfl)
    cases hj
    exact h.shard _ _ (by rw [hn]; rfl)
  | put hn => exact h.put hn
  | wait hn hp =>
    refine h.submitTo h.cursor rfl rfl rfl ?_ ?_
    · rcases hp with rfl | rfl | ⟨rfl, -⟩
      all_goals rintro _ ⟨⟩
    · rw [hn]
      rcases hp with rfl | rfl | ⟨rfl, -⟩
      all_goals rfl
  | «return» hn => exact h.submitTo h.cursor rfl rfl rfl (by rintro _ ⟨⟩) (by rw [hn]; rfl)
  | look | finish | publish | unpark => exact h.workerTo rfl rfl rfl rfl
  | take hw hold hi hq =>
    refine h.pop hq rfl rfl rfl rfl fun m => ?_
    rw [List.count_append, List.count_singleton]
    simp [beq_iff_eq]
  | exit hw hold hi hq => exact h.pop hq rfl rfl rfl rfl fun m => by simp
  | finiStart => exact ⟨h.size, h.cursor, h.shard, h.bound, h.unsent, h.sent⟩
  | @fini i hf hi =>
    have hmem : ∀ j m, Item.job m ∈ ((l.s.setShard i (l.s.shards i ++ [.shutdown])).shards j) ↔
        Item.job m ∈ l.s.shards j := fun j m => by
      by_cases hj : j = i
      · simp [State.setShard, hj]
      · simp [State.setShard, hj]
    have hcount : ∀ j m, ((l.s.setShard i (l.s.shards i ++ [.shutdown])).shards j).count (.job m) =
        (l.s.shards j).count (.job m) := fun j m => by
      by_cases hj : j = i
      · simp [State.setShard, hj]
      · simp [State.setShard, hj]
    refine ⟨h.size, h.cursor, h.shard, fun j hj => ?_, fun m hm => ?_, fun m hm => ?_⟩
    all_goals dsimp only at *
    · have hji : j ≠ i := fun he => absurd (he ▸ hj) (Nat.not_le.mpr hi)
      exact (if_neg hji).trans (h.bound j hj)
    · obtain ⟨h1, h2, h3⟩ := h.unsent m hm
      exact ⟨h1, h2, fun j hj => h3 j ((hmem j m).mp hj)⟩
    · obtain ⟨h1, h2, h3⟩ := h.sent m hm
      exact ⟨h1, by rw [hcount]; exact h2, fun j hj hmj => h3 j hj ((hmem j m).mp hmj)⟩

end Placed

/-! ### What a job came to -/

/-- `run`: from the item to the store to `box[0]` or `box[1]`. -/
structure Ran (l : Log V) : Prop where
  busy : ∀ w n, l.s.worker w = .run n → n ∈ l.begun ∧ n ∉ l.ended.map Prod.fst
  own : ∀ w n, l.s.worker w = .run n → w < l.s.size
  alone : ∀ w v n, l.s.worker w = .run n → l.s.worker v = .run n → w = v
  begun : ∀ n ∈ l.begun, (∃ w, l.s.worker w = .run n) ∨ n ∈ l.ended.map Prod.fst
  once : (l.ended.map Prod.fst).Nodup
  stored : ∀ n v, (n, v) ∈ l.ended → n ∈ l.begun ∧ l.s.outcome n = some v
  published : ∀ w n, l.s.worker w = .publish n → n ∈ l.ended.map Prod.fst
  done : ∀ n, l.s.done n = true → n ∈ l.ended.map Prod.fst
  releasing : ∀ n, l.s.submit n = .releasing → l.s.done n = true
  returned : ∀ n o, l.s.submit n = .returned o → ∃ v, o = some v ∧ (n, v) ∈ l.ended

section Ran

variable {l : Log V}

theorem Ran.outcome (h : Ran l) {n : ℕ} (hn : n ∈ l.ended.map Prod.fst) :
    ∃ v, l.s.outcome n = some v ∧ (n, v) ∈ l.ended := by
  obtain ⟨⟨m, v⟩, hmem, rfl⟩ := List.mem_map.mp hn
  exact ⟨v, (h.stored m v hmem).2, hmem⟩

/-- A submit moves on; its new place is accounted for. -/
theorem Ran.submitTo (h : Ran l) {s' : State V} {n : ℕ} {p : SubmitPc V} {home : ℕ → ℕ}
    {early : List ℕ} (hsize : s'.size = l.s.size) (hworker : s'.worker = l.s.worker)
    (houtcome : s'.outcome = l.s.outcome) (hdone : s'.done = l.s.done)
    (hsubmit : s'.submit = fun m => if m = n then p else l.s.submit m)
    (hreleasing : p = .releasing → l.s.done n = true)
    (hreturned : ∀ o, p = .returned o → ∃ v, o = some v ∧ (n, v) ∈ l.ended) :
    Ran { l with s := s', home := home, early := early } := by
  refine ⟨?_, ?_, ?_, ?_, h.once, ?_, ?_, ?_, fun m hm => ?_, fun m o hm => ?_⟩
  all_goals dsimp only at *
  · rw [hworker]
    exact h.busy
  · rw [hworker, hsize]
    exact h.own
  · rw [hworker]
    exact h.alone
  · rw [hworker]
    exact h.begun
  · rw [houtcome]
    exact h.stored
  · rw [hworker]
    exact h.published
  · rw [hdone]
    exact h.done
  · rw [hdone]
    rw [hsubmit] at hm
    dsimp only at hm
    split at hm
    case isTrue hmn =>
      rw [hmn]
      exact hreleasing hm
    case isFalse => exact h.releasing m hm
  · rw [hsubmit] at hm
    dsimp only at hm
    split at hm
    case isTrue hmn =>
      rw [hmn]
      exact hreturned o hm
    case isFalse => exact h.returned m o hm

/-- A worker that has no running job moves to a place where it has none. -/
theorem Ran.workerTo (h : Ran l) {s' : State V} {w : ℕ} {p : WorkerPc} {took : List (ℕ × ℕ)}
    (hsize : s'.size = l.s.size)
    (hworker : s'.worker = fun v => if v = w then p else l.s.worker v)
    (houtcome : s'.outcome = l.s.outcome) (hsubmit : s'.submit = l.s.submit)
    (hdone : ∀ n, s'.done n = true → n ∈ l.ended.map Prod.fst)
    (hmono : ∀ n, l.s.done n = true → s'.done n = true)
    (hold : ∀ n, l.s.worker w ≠ .run n) (hrun : ∀ n, p ≠ .run n) (hpublish : ∀ n, p ≠ .publish n) :
    Ran { l with s := s', took := took } := by
  have hpc : ∀ v n, s'.worker v = .run n ↔ l.s.worker v = .run n := fun v n => by
    rw [hworker]
    dsimp only
    split
    case isTrue hv =>
      rw [hv]
      exact iff_of_false (hrun n) (hold n)
    case isFalse => rfl
  refine ⟨fun v n hv => ?_, fun v n hv => ?_, fun v u n hv hu => ?_, fun n hn => ?_, h.once, ?_,
    fun v n hv => ?_, hdone, fun m hm => ?_, ?_⟩
  all_goals dsimp only at *
  · exact h.busy v n ((hpc v n).mp hv)
  · rw [hsize]
    exact h.own v n ((hpc v n).mp hv)
  · exact h.alone v u n ((hpc v n).mp hv) ((hpc u n).mp hu)
  · exact (h.begun n hn).imp_left fun ⟨v, hv⟩ => ⟨v, (hpc v n).mpr hv⟩
  · rw [houtcome]
    exact h.stored
  · rw [hworker] at hv
    dsimp only at hv
    split at hv
    case isTrue => exact absurd hv (hpublish n)
    case isFalse => exact h.published v n hv
  · rw [hsubmit] at hm
    exact hmono m (h.releasing m hm)
  · rw [hsubmit]
    exact h.returned

theorem WorkerPc.ne_run_of_looking {p : WorkerPc} (hp : p.looking = true) (n : ℕ) : p ≠ .run n := by
  rintro rfl
  cases hp

theorem WorkerPc.ne_publish_of_looking {p : WorkerPc} (hp : p.looking = true) (n : ℕ) :
    p ≠ .publish n := by
  rintro rfl
  cases hp

/-- A worker takes a job that nobody took before. -/
theorem Ran.take (h : Ran l) {w i n : ℕ} {xs : List Item} (hw : w < l.s.size)
    (hold : (l.s.worker w).looking = true) (hn : n ∉ l.begun) :
    Ran { l with s := (l.s.setShard i xs).workerTo w (.run n), begun := l.begun ++ [n] } := by
  have hself : ((l.s.setShard i xs).workerTo w (.run n)).worker w = .run n := if_pos rfl
  have hother : ∀ v, v ≠ w → ((l.s.setShard i xs).workerTo w (.run n)).worker v = l.s.worker v :=
    fun v hv => if_neg hv
  have hended : n ∉ l.ended.map Prod.fst := fun hmem => by
    obtain ⟨v, -, hv⟩ := h.outcome hmem
    exact hn (h.stored n v hv).1
  -- the others run jobs that were taken before
  have hfree : ∀ v, v ≠ w → ((l.s.setShard i xs).workerTo w (.run n)).worker v ≠ .run n :=
    fun v hv he => hn (h.busy v n (hother v hv ▸ he)).1
  refine ⟨fun v m hv => ?_, fun v m hv => ?_, fun v u m hv hu => ?_, fun m hm => ?_, h.once,
    fun m v hm => ?_, fun v m hv => ?_, h.done, h.releasing, h.returned⟩
  all_goals dsimp only at *
  · by_cases hvw : v = w
    · rw [hvw, hself] at hv
      cases hv
      exact ⟨List.mem_append_right _ (List.mem_singleton_self n), hended⟩
    · rw [hother v hvw] at hv
      obtain ⟨h1, h2⟩ := h.busy v m hv
      exact ⟨List.mem_append_left _ h1, h2⟩
  · by_cases hvw : v = w
    · exact hvw ▸ hw
    · rw [hother v hvw] at hv
      exact h.own v m hv
  · by_cases hvw : v = w
    · by_cases huw : u = w
      · rw [hvw, huw]
      · rw [hvw, hself] at hv
        cases hv
        exact absurd hu (hfree u huw)
    · by_cases huw : u = w
      · rw [huw, hself] at hu
        cases hu
        exact absurd hv (hfree v hvw)
      · rw [hother v hvw] at hv
        rw [hother u huw] at hu
        exact h.alone v u m hv hu
  · rcases List.mem_append.mp hm with hm | hm
    · refine (h.begun m hm).imp_left fun ⟨v, hv⟩ => ⟨v, ?_⟩
      have hvw : v ≠ w := by
        rintro rfl
        exact WorkerPc.ne_run_of_looking hold m hv
      rw [hother v hvw, hv]
    · rw [List.mem_singleton.mp hm]
      exact .inl ⟨w, hself⟩
  · obtain ⟨h1, h2⟩ := h.stored m v hm
    exact ⟨List.mem_append_left _ h1, h2⟩
  · have hvw : v ≠ w := by
      rintro rfl
      rw [hself] at hv
      cases hv
    rw [hother v hvw] at hv
    exact h.published v m hv

/-- The `fn` of the job returns or raises. -/
theorem Ran.finish (h : Ran l) {w n : ℕ} {x : V} (hold : l.s.worker w = .run n) :
    Ran { l with
      s := { l.s with outcome := fun m => if m = n then some x else l.s.outcome m }.workerTo w
        (.publish n)
      ended := l.ended ++ [(n, x)] } := by
  obtain ⟨hbegun, hnot⟩ := h.busy w n hold
  generalize hs' : State.workerTo { l.s with outcome := fun m => if m = n then some x else l.s.outcome m }
    w (.publish n) = s'
  have hself : s'.worker w = .publish n := by
    rw [← hs']
    exact if_pos rfl
  have hother : ∀ v, v ≠ w → s'.worker v = l.s.worker v := fun v hv => by
    rw [← hs']
    exact if_neg hv
  have hsize : s'.size = l.s.size := by
    rw [← hs']
    rfl
  have hsubmit : s'.submit = l.s.submit := by
    rw [← hs']
    rfl
  have hdone : s'.done = l.s.done := by
    rw [← hs']
    rfl
  have houtcome : ∀ m, s'.outcome m = if m = n then some x else l.s.outcome m := fun m => by
    rw [← hs']
    rfl
  have hmap : (l.ended ++ [(n, x)]).map Prod.fst = l.ended.map Prod.fst ++ [n] := List.map_append
  have hleft : ∀ {m : ℕ}, m ∈ l.ended.map Prod.fst → m ∈ (l.ended ++ [(n, x)]).map Prod.fst :=
    fun hm => by
      rw [hmap]
      exact List.mem_append_left _ hm
  have hright : n ∈ (l.ended ++ [(n, x)]).map Prod.fst := by
    rw [hmap]
    exact List.mem_append_right _ (List.mem_singleton_self n)
  have hrun : ∀ v m, s'.worker v = .run m → v ≠ w ∧ l.s.worker v = .run m := fun v m hv => by
    have hvw : v ≠ w := by
      rintro rfl
      rw [hself] at hv
      cases hv
    exact ⟨hvw, hother v hvw ▸ hv⟩
  refine ⟨fun v m hv => ?_, fun v m hv => ?_, fun v u m hv hu => ?_, fun m hm => ?_, ?_,
    fun m v hm => ?_, fun v m hv => ?_, fun m hm => ?_, ?_, fun m o hm => ?_⟩
  all_goals dsimp only at *
  · obtain ⟨hvw, hv⟩ := hrun v m hv
    obtain ⟨h1, h2⟩ := h.busy v m hv
    refine ⟨h1, ?_⟩
    rw [hmap, List.mem_append, List.mem_singleton]
    refine fun he => he.elim h2 ?_
    rintro rfl
    exact hvw (h.alone v w m hv hold)
  · rw [hsize]
    exact h.own v m (hrun v m hv).2
  · exact h.alone v u m (hrun v m hv).2 (hrun u m hu).2
  · rcases h.begun m hm with ⟨v, hv⟩ | hm
    · by_cases hvw : v = w
      · rw [hvw, hold] at hv
        cases hv
        exact .inr hright
      · exact .inl ⟨v, (hother v hvw).trans hv⟩
    · exact .inr (hleft hm)
  · rw [hmap]
    exact List.nodup_append_comm.mp (List.nodup_cons.mpr ⟨hnot, h.once⟩)
  · rw [houtcome]
    rcases List.mem_append.mp hm with hold' | hnew
    · obtain ⟨h1, h2⟩ := h.stored m v hold'
      have hmn : m ≠ n := by
        rintro rfl
        exact hnot (List.mem_map_of_mem hold')
      exact ⟨h1, (if_neg hmn).trans h2⟩
    · cases List.mem_singleton.mp hnew
      exact ⟨hbegun, if_pos rfl⟩
  · by_cases hvw : v = w
    · rw [hvw, hself] at hv
      cases hv
      exact hright
    · exact hleft (h.published v m (hother v hvw ▸ hv))
  · exact hleft (h.done m (hdone ▸ hm))
  · rw [hsubmit, hdone]
    exact h.releasing
  · obtain ⟨v, hv, hmem⟩ := h.returned m o (hsubmit ▸ hm)
    exact ⟨v, hv, List.mem_append_left _ hmem⟩

theorem Ran.step (h : Ran l) (hp : Placed l) {l' : Log V} (hm : Move l l') : Ran l' := by
  cases hm with
  | choose | turn | build | put => exact h.submitTo rfl rfl rfl rfl rfl (by rintro ⟨⟩) (by rintro _ ⟨⟩)
  | wait hn hpc =>
    refine h.submitTo rfl rfl rfl rfl rfl (fun hr => ?_) fun o ho => ?_
    · rcases hpc with rfl | rfl | ⟨-, hd⟩
      · cases hr
      · cases hr
      · exact hd
    · rcases hpc with rfl | rfl | ⟨rfl, -⟩
      all_goals cases ho
  | @«return» n hn =>
    refine h.submitTo rfl rfl rfl rfl rfl (by rintro ⟨⟩) fun o ho => ?_
    cases ho
    exact h.outcome (h.done n (h.releasing n hn))
  | look hw hold hpc =>
    exact h.workerTo rfl rfl rfl rfl h.done (fun _ => id) (WorkerPc.ne_run_of_looking hold)
      (WorkerPc.ne_run_of_looking hpc) (WorkerPc.ne_publish_of_looking hpc)
  | @take w i n xs hw hold hi hq =>
    refine h.take hw hold fun hn => ?_
    have hmem : Item.job n ∈ l.s.shards i := by
      rw [hq]
      exact List.mem_cons_self
    have hsent : (l.s.submit n).sent = true := by
      by_contra hs
      exact (hp.unsent n (Bool.not_eq_true _ ▸ hs)).2.2 i hmem
    obtain ⟨-, hone, hhome⟩ := hp.sent n hsent
    have hi : i = l.home n := by
      by_contra hne
      exact hhome i hne hmem
    have h1 := List.count_pos_iff.mpr hn
    have h2 := List.count_pos_iff.mpr (hi ▸ hmem)
    omega
  | exit hw hold hi hq =>
    exact h.workerTo rfl rfl rfl rfl h.done (fun _ => id) (WorkerPc.ne_run_of_looking hold) (by rintro _ ⟨⟩) (by rintro _ ⟨⟩)
  | finish hold => exact h.finish hold
  | @publish w n hold =>
    refine h.workerTo rfl rfl rfl rfl (fun m hm => ?_) (fun m hm => ?_) (fun m => by rw [hold]; rintro ⟨⟩) (by rintro _ ⟨⟩)
      nofun
    · dsimp only [State.workerTo] at hm
      split at hm
      case isTrue hmn =>
        rw [hmn]
        exact h.published w n hold
      case isFalse => exact h.done m hm
    · dsimp only [State.workerTo]
      split
      case isTrue => rfl
      case isFalse => exact hm
  | unpark hold =>
    exact h.workerTo rfl rfl rfl rfl h.done (fun _ => id) (fun m => by rw [hold]; nofun) nofun nofun
  | finiStart | fini =>
    exact ⟨h.busy, h.own, h.alone, h.begun, h.once, h.stored, h.published, h.done, h.releasing, h.returned⟩

end Ran

/-! ### Sentinels and workers -/

structure Fenced (l : Log V) : Prop where
  put : l.s.put ≤ l.s.size
  ahead : ∀ i, l.s.put ≤ i → Item.shutdown ∉ l.s.shards i ∧ i ∉ l.took.map Prod.snd
  behind : ∀ i, i < l.s.put →
    (l.s.shards i).count .shutdown + (l.took.map Prod.snd).count i = 1
  once : (l.took.map Prod.fst).Nodup
  exited : ∀ w, w ∈ l.took.map Prod.fst ↔ l.s.worker w = .exited
  bound : ∀ w, l.s.worker w = .exited → w < l.s.size
  before : ∀ i, i < l.s.put → ∀ n ∈ l.early, Item.job n ∈ l.s.shards i →
    ∃ pre post, l.s.shards i = pre ++ .job n :: post ∧ Item.shutdown ∈ post

section Fenced

variable {l : Log V}

/-- Nothing of this changes with the submits and with what workers do to their jobs. -/
theorem Fenced.keep (h : Fenced l) {s' : State V} {begun : List ℕ} {ended : List (ℕ × V)}
    (hsize : s'.size = l.s.size) (hput : s'.put = l.s.put) (hshards : s'.shards = l.s.shards)
    (hworker : ∀ w, s'.worker w = .exited ↔ l.s.worker w = .exited) :
    Fenced { l with s := s', begun := begun, ended := ended } := by
  refine ⟨?_, ?_, ?_, h.once, fun w => ?_, fun w hw => ?_, ?_⟩
  all_goals dsimp only at *
  · rw [hput, hsize]
    exact h.put
  · rw [hput, hshards]
    exact h.ahead
  · rw [hput, hshards]
    exact h.behind
  · exact (h.exited w).trans (hworker w).symm
  · rw [hsize]
    exact h.bound w ((hworker w).mp hw)
  · rw [hput, hshards]
    exact h.before

theorem Fenced.put_job (h : Fenced l) (hp : Placed l) {n i : ℕ} (hn : l.s.submit n = .enqueue i) :
    Fenced { l with
      s := (l.s.setShard i (l.s.shards i ++ [Item.job n])).submitTo n .check
      home := update l.home n i
      early := if l.s.put ≤ i then l.early ++ [n] else l.early } := by
  obtain ⟨-, hearly, hnot⟩ := hp.unsent n (by rw [hn]; rfl)
  generalize hs' : (l.s.setShard i (l.s.shards i ++ [Item.job n])).submitTo n .check = s'
  have hput : s'.put = l.s.put := by
    rw [← hs']
    rfl
  have hat : s'.shards i = l.s.shards i ++ [Item.job n] := by
    rw [← hs']
    exact if_pos rfl
  have hne : ∀ j, j ≠ i → s'.shards j = l.s.shards j := fun j hj => by
    rw [← hs']
    exact if_neg hj
  have hworker : s'.worker = l.s.worker := by
    rw [← hs']
    rfl
  have hsize : s'.size = l.s.size := by
    rw [← hs']
    rfl
  have hcount : ∀ j, (s'.shards j).count .shutdown = (l.s.shards j).count .shutdown := fun j => by
    by_cases hj : j = i
    · rw [hj, hat, List.count_append]
      rfl
    · rw [hne j hj]
  refine ⟨?_, fun j hj => ?_, fun j hj => ?_, h.once, ?_, ?_, fun j hj m hm hmj => ?_⟩
  all_goals dsimp only at *
  · rw [hput, hsize]
    exact h.put
  · obtain ⟨h1, h2⟩ := h.ahead j (hput ▸ hj)
    refine ⟨?_, h2⟩
    rw [← List.count_eq_zero, hcount, List.count_eq_zero]
    exact h1
  · rw [hcount]
    exact h.behind j (hput ▸ hj)
  · rw [hworker]
    exact h.exited
  · rw [hworker, hsize]
    exact h.bound
  · rw [hput] at hj
    have hold : m ∈ l.early ∧ m ≠ n := by
      split at hm
      case isTrue hi =>
        rcases List.mem_append.mp hm with hold | hnew
        · refine ⟨hold, ?_⟩
          rintro rfl
          exact hearly hold
        · rw [List.mem_singleton.mp hnew, hne j (Nat.ne_of_lt (Nat.lt_of_lt_of_le hj hi))] at hmj
          exact absurd hmj (hnot j)
      case isFalse =>
        refine ⟨hm, ?_⟩
        rintro rfl
        exact hearly hm
    obtain ⟨hm, hmn⟩ := hold
    by_cases hji : j = i
    · rw [hji, hat, List.mem_append, List.mem_singleton] at hmj
      have hmem : Item.job m ∈ l.s.shards i := hmj.resolve_right fun he => hmn (Item.job.inj he)
      obtain ⟨pre, post, hsplit, hsent⟩ := h.before i (hji ▸ hj) m hm hmem
      refine ⟨pre, post ++ [Item.job n], ?_, List.mem_append_left _ hsent⟩
      rw [hji, hat, hsplit, List.append_assoc]
      rfl
    · rw [hne j hji] at hmj ⊢
      exact h.before j hj m hm hmj

/-- The early jobs of the rest of a shard. -/
theorem Fenced.before_tail (h : Fenced l) (hp : Placed l) {i j : ℕ} {x : Item} {xs : List Item}
    (hq : l.s.shards i = x :: xs) (hj : j < l.s.put) {n : ℕ} (hn : n ∈ l.early)
    (hmem : Item.job n ∈ if j = i then xs else l.s.shards j) :
    ∃ pre post, (if j = i then xs else l.s.shards j) = pre ++ .job n :: post ∧
      Item.shutdown ∈ post := by
  by_cases hji : j = i
  · subst hji
    rw [if_pos rfl] at hmem ⊢
    have hall : Item.job n ∈ l.s.shards j := by
      rw [hq]
      exact List.mem_cons_of_mem x hmem
    have hx : x ≠ .job n := by
      rintro rfl
      have hsent : (l.s.submit n).sent = true := by
        by_contra hs
        exact (hp.unsent n (Bool.not_eq_true _ ▸ hs)).2.2 j hall
      obtain ⟨-, hone, hhome⟩ := hp.sent n hsent
      have hj : l.home n = j := by
        by_contra hne
        exact hhome j (Ne.symm hne) hall
      rw [hj, hq, List.count_cons_self] at hone
      have := List.count_pos_iff.mpr hmem
      omega
    obtain ⟨pre, post, hsplit, hsent⟩ := h.before j hj n hn hall
    rw [hq] at hsplit
    cases pre with
    | nil => exact absurd (List.cons.inj hsplit).1 hx
    | cons y pre => exact ⟨pre, post, (List.cons.inj hsplit).2, hsent⟩
  · rw [if_neg hji] at hmem ⊢
    exact h.before j hj n hn hmem

theorem Fenced.take (h : Fenced l) (hp : Placed l) {w i n : ℕ} {xs : List Item}
    (hold : (l.s.worker w).looking = true) (hq : l.s.shards i = .job n :: xs) :
    Fenced { l with s := (l.s.setShard i xs).workerTo w (.run n), begun := l.begun ++ [n] } := by
  have hcount : ∀ j, (if j = i then xs else l.s.shards j).count Item.shutdown =
      (l.s.shards j).count .shutdown := fun j => by
    split
    case isTrue hj =>
      have hne : Item.job n ≠ .shutdown := by rintro ⟨⟩
      rw [hj, hq, List.count_cons_of_ne hne]
    case isFalse => rfl
  have hworker : ∀ v, (if v = w then WorkerPc.run n else l.s.worker v) = .exited ↔
      l.s.worker v = .exited := fun v => by
    split
    case isTrue hv =>
      refine iff_of_false (by rintro ⟨⟩) fun he => ?_
      rw [← hv, he] at hold
      cases hold
    case isFalse => rfl
  refine ⟨h.put, fun j hj => ⟨?_, (h.ahead j hj).2⟩, fun j hj => ?_, h.once,
    fun v => (h.exited v).trans (hworker v).symm, fun v hv => h.bound v ((hworker v).mp hv),
    fun j hj m hm hmj => h.before_tail hp hq hj hm hmj⟩
  · refine List.count_eq_zero.mp ((hcount j).trans ?_)
    exact List.count_eq_zero.mpr (h.ahead j hj).1
  · exact (congrArg (· + _) (hcount j)).trans (h.behind j hj)

theorem Fenced.exit (h : Fenced l) (hp : Placed l) {w i : ℕ} {xs : List Item} (hw : w < l.s.size)
    (hold : (l.s.worker w).looking = true) (hq : l.s.shards i = .shutdown :: xs) :
    Fenced { l with s := (l.s.setShard i xs).workerTo w .exited, took := l.took ++ [(w, i)] } := by
  have hi : i < l.s.put := by
    by_contra hi
    refine (h.ahead i (Nat.not_lt.mp hi)).1 ?_
    rw [hq]
    exact List.mem_cons_self
  have hfst : (l.took ++ [(w, i)]).map Prod.fst = l.took.map Prod.fst ++ [w] := List.map_append
  have hsnd : (l.took ++ [(w, i)]).map Prod.snd = l.took.map Prod.snd ++ [i] := List.map_append
  have hnew : w ∉ l.took.map Prod.fst := fun hmem => by
    rw [(h.exited w).mp hmem] at hold
    cases hold
  refine ⟨h.put, fun j hj => ?_, fun j hj => ?_, ?_, fun v => ?_, fun v hv => ?_,
    fun j hj m hm hmj => h.before_tail hp hq hj hm hmj⟩
  all_goals dsimp only [State.workerTo, State.setShard] at *
  · have hji : j ≠ i := Nat.ne_of_gt (Nat.lt_of_lt_of_le hi hj)
    obtain ⟨h1, h2⟩ := h.ahead j hj
    rw [if_neg hji, hsnd, List.mem_append, List.mem_singleton]
    exact ⟨h1, fun he => he.elim h2 hji⟩
  · have hone := h.behind j hj
    rw [hsnd, List.count_append]
    by_cases hji : j = i
    · subst hji
      rw [hq, List.count_cons_self] at hone
      rw [if_pos rfl, List.count_singleton_self]
      omega
    · rw [if_neg hji, List.count_singleton, if_neg (by simpa using Ne.symm hji)]
      omega
  · rw [hfst]
    exact List.nodup_append_comm.mp (List.nodup_cons.mpr ⟨hnew, h.once⟩)
  · rw [hfst, List.mem_append, List.mem_singleton, h.exited]
    by_cases hv : v = w
    · simp [hv]
    · simp [hv]
  · split at hv
    case isTrue hvw => exact hvw ▸ hw
    case isFalse => exact h.bound v hv

/-- `fini` puts the next sentinel: behind every job of that shard. -/
theorem Fenced.fini (h : Fenced l) {i : ℕ} (hf : l.s.fini = some i) (hi : i < l.s.size) :
    Fenced { l with
      s := { l.s.setShard i (l.s.shards i ++ [.shutdown]) with fini := some (i + 1) } } := by
  have hput : l.s.put = i := by rw [State.put, hf]; rfl
  have hcount : ∀ j, (if j = i then l.s.shards i ++ [.shutdown] else l.s.shards j).count Item.shutdown =
      (l.s.shards j).count .shutdown + if j = i then 1 else 0 := fun j => by
    split
    case isTrue hj =>
      rw [hj, List.count_append, List.count_singleton_self]
    case isFalse => rfl
  obtain ⟨hnone, huntaken⟩ := h.ahead i (Nat.le_of_eq hput)
  refine ⟨hi, fun j hj => ?_, fun j hj => ?_, h.once, h.exited, h.bound, fun j hj m hm hmj => ?_⟩
  all_goals dsimp only [State.setShard] at *
  · have hlt : i < j := hj
    rw [if_neg (Nat.ne_of_gt hlt)]
    exact h.ahead j (hput ▸ Nat.le_of_lt hlt)
  · have hle : j ≤ i := Nat.le_of_lt_succ hj
    rw [hcount]
    by_cases hji : j = i
    · subst hji
      rw [List.count_eq_zero_of_not_mem hnone, List.count_eq_zero_of_not_mem huntaken, if_pos rfl]
    · rw [if_neg hji]
      exact h.behind j (hput ▸ Nat.lt_of_le_of_ne hle hji)
  · have hle : j ≤ i := Nat.le_of_lt_succ hj
    by_cases hji : j = i
    · subst hji
      rw [if_pos rfl] at hmj ⊢
      have hmem : Item.job m ∈ l.s.shards j :=
        (List.mem_append.mp hmj).resolve_right fun he => nomatch List.mem_singleton.mp he
      obtain ⟨pre, post, hsplit⟩ := List.append_of_mem hmem
      refine ⟨pre, post ++ [.shutdown], ?_, List.mem_append_right _ List.mem_cons_self⟩
      rw [hsplit, List.append_assoc]
      rfl
    · rw [if_neg hji] at hmj ⊢
      exact h.before j (hput ▸ Nat.lt_of_le_of_ne hle hji) m hm hmj

theorem Fenced.workerTo (h : Fenced l) {s' : State V} {w : ℕ} {p : WorkerPc}
    {ended : List (ℕ × V)} (hsize : s'.size = l.s.size) (hput : s'.put = l.s.put)
    (hshards : s'.shards = l.s.shards)
    (hworker : s'.worker = fun v => if v = w then p else l.s.worker v)
    (hold : l.s.worker w ≠ .exited) (hp : p ≠ .exited) : Fenced { l with s := s', ended := ended } := by
  refine h.keep hsize hput hshards fun v => ?_
  rw [hworker]
  dsimp only
  split
  case isTrue hv =>
    rw [hv]
    exact iff_of_false hp hold
  case isFalse => rfl

theorem WorkerPc.ne_exited_of_looking {p : WorkerPc} (hp : p.looking = true) : p ≠ .exited := by
  rintro rfl
  cases hp

theorem Fenced.step (h : Fenced l) (hp : Placed l) {l' : Log V} (hm : Move l l') : Fenced l' := by
  cases hm with
  | choose | turn | build | wait | «return» => exact h.keep rfl rfl rfl fun _ => Iff.rfl
  | put hn => exact h.put_job hp hn
  | look hw hold hpc =>
    exact h.workerTo rfl rfl rfl rfl (WorkerPc.ne_exited_of_looking hold)
      (WorkerPc.ne_exited_of_looking hpc)
  | take hw hold hi hq => exact h.take hp hold hq
  | exit hw hold hi hq => exact h.exit hp hw hold hq
  | finish hold | publish hold | unpark hold =>
    exact h.workerTo rfl rfl rfl rfl (by rw [hold]; rintro ⟨⟩) (by rintro ⟨⟩)
  | finiStart hf =>
    refine h.keep rfl ?_ rfl fun _ => Iff.rfl
    rw [State.put, State.put, hf]
    rfl
  | fini hf hi => exact h.fini hf hi

end Fenced

/-! ### Whole runs -/

theorem Move.size {l l' : Log V} (hm : Move l l') : l'.s.size = l.s.size := by
  cases hm with
  | _ => rfl

theorem placed_init {size : ℕ} (hsize : 0 < size) : Placed (Log.init V size) := by
  refine ⟨hsize, hsize, ?_, ?_, ?_, ?_⟩
  · exact fun n i hi => nomatch hi
  · exact fun i _ => rfl
  · exact fun n _ => ⟨List.not_mem_nil, List.not_mem_nil, fun i => List.not_mem_nil⟩
  · exact fun n hn => nomatch hn

theorem ran_init (size : ℕ) : Ran (Log.init V size) := by
  refine ⟨?_, ?_, ?_, ?_, List.nodup_nil, ?_, ?_, ?_, ?_, ?_⟩
  · exact fun w n hw => nomatch hw
  · exact fun w n hw => nomatch hw
  · exact fun w v n hw => nomatch hw
  · exact fun n hn => nomatch hn
  · exact fun n v hv => nomatch hv
  · exact fun w n hw => nomatch hw
  · exact fun n hn => nomatch hn
  · exact fun n hn => nomatch hn
  · exact fun n o hn => nomatch hn

theorem fenced_init (size : ℕ) : Fenced (Log.init V size) := by
  refine ⟨Nat.zero_le _, fun i _ => ⟨List.not_mem_nil, List.not_mem_nil⟩, fun i hi => ?_,
    List.nodup_nil, fun w => iff_of_false List.not_mem_nil (by rintro ⟨⟩), ?_, fun i hi => ?_⟩
  · exact absurd hi (Nat.not_lt_zero i)
  · exact fun w hw => nomatch hw
  · exact absurd hi (Nat.not_lt_zero i)

structure Jobs (l : Log V) : Prop where
  placed : Placed l
  ran : Ran l
  fenced : Fenced l

theorem reachable_jobs {size : ℕ} (hsize : 0 < size) {l : Log V}
    (h : Reachable (logged V size) l) : l.s.size = size ∧ Jobs l := by
  refine h.invariant (P := fun l => l.s.size = size ∧ Jobs l) ?_ ?_
  · rintro l rfl
    exact ⟨rfl, placed_init hsize, ran_init size, fenced_init size⟩
  · rintro l a l' - ⟨hl, hp, hr, hf⟩ hs
    have hm := step_move hs
    exact ⟨hm.size.trans hl, hp.step hm, hr.step hp hm, hf.step hp hm⟩

end Stackweave.Monkey.Backend
