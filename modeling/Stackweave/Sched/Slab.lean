import Mathlib.Data.Set.Card
import Mathlib.Tactic.Common

/-!
# The g slab (`runloom_sched_core.c.inc`)

Every thread has a list of recycled structs, and there is one pool for all of them under a lock.
What a thread does with its own list is not seen by the others, so an allocation is one step, and
so is a free.
-/

namespace Stackweave.Slab

open Function

/-- `RUNLOOM_G_SLAB_CAP` and `RUNLOOM_G_GLOBAL_BATCH`. -/
structure Config where
  cap : ℕ
  batch : ℕ

/-- The structs that the OS has given are those below `fresh`. `handed` and `returned` are
history. -/
structure State where
  slabs : ℕ → List ℕ
  pool : List ℕ
  fresh : ℕ
  handed : ℕ
  returned : ℕ

def empty : State :=
  { slabs := fun _ => [], pool := [], fresh := 0, handed := 0, returned := 0 }

namespace State

variable (c : Config) (s : State) (t : ℕ)

/-- `runloom_g_global_refill` -/
def globalRefill : State :=
  { s with
    slabs := Function.update s.slabs t (s.pool.take (max 1 c.batch) ++ s.slabs t)
    pool := s.pool.drop (max 1 c.batch) }

/-- `runloom_g_global_flush` -/
def globalFlush : State :=
  { s with
    slabs := Function.update s.slabs t ((s.slabs t).drop (max 1 c.batch))
    pool := (s.slabs t).take (max 1 c.batch) ++ s.pool }

/-- The head of the slab, if there is one. -/
def pop : Option (State × ℕ) :=
  match s.slabs t with
  | [] => none
  | g :: l =>
    some ({ s with slabs := Function.update s.slabs t l, handed := s.handed + 1 }, g)

/-- `runloom_g_slab_alloc`: `fault` is the injected failure, `oom` that of `calloc`. -/
def alloc (fault oom : Bool) : Option (State × ℕ) :=
  if fault then none
  else
    let s := if s.slabs t = [] then s.globalRefill c t else s
    match s.pop t with
    | some r => some r
    | none =>
      if oom then none
      else some ({ s with fresh := s.fresh + 1, handed := s.handed + 1 }, s.fresh)

/-- `runloom_g_slab_free` -/
def free (g : ℕ) : State :=
  let s := { s with
    slabs := Function.update s.slabs t (g :: s.slabs t), returned := s.returned + 1 }
  if c.cap < (s.slabs t).length then s.globalFlush c t else s

/-- `runloom_g_slab_thread_flush` -/
def threadFlush : State :=
  { s with slabs := Function.update s.slabs t [], pool := s.slabs t ++ s.pool }

/-- `runloom_g_slab_reclaim`: what is in the pool goes to the OS. -/
def reclaim : State := { s.threadFlush t with pool := [] }

end State

/-- `out` are the structs in use. None of them is cached, nothing is cached twice, and they are as
many as were handed out and not returned. -/
structure Sound (s : State) (out : Set ℕ) : Prop where
  slab : ∀ t, (s.slabs t).Nodup
  apart : ∀ t t' g, g ∈ s.slabs t → g ∈ s.slabs t' → t = t'
  pool : s.pool.Nodup
  slab_pool : ∀ t g, g ∈ s.slabs t → g ∉ s.pool
  slab_out : ∀ t g, g ∈ s.slabs t → g ∉ out ∧ g < s.fresh
  pool_out : ∀ g ∈ s.pool, g ∉ out ∧ g < s.fresh
  below : ∀ g ∈ out, g < s.fresh
  count : s.handed = s.returned + out.ncard

theorem sound_empty : Sound empty ∅ where
  slab _ := List.nodup_nil
  apart _ _ _ h := by cases h
  pool := List.nodup_nil
  slab_pool _ _ h := by cases h
  slab_out _ _ h := by cases h
  pool_out _ h := by cases h
  below _ h := h.elim
  count := by simp [empty]

section

variable {c : Config} {s s' : State} {out : Set ℕ} {t g : ℕ}

theorem Sound.finite (h : Sound s out) : out.Finite :=
  (Set.finite_lt_nat s.fresh).subset h.below

/-- Structs move between the slab of a thread and the pool. -/
theorem Sound.exchange {l p : List ℕ} (h : Sound s out) (hnodup : (l ++ p).Nodup)
    (hmem : ∀ g ∈ l ++ p, g ∈ s.slabs t ∨ g ∈ s.pool) :
    Sound { s with slabs := update s.slabs t l, pool := p } out := by
  have hcached : ∀ g, g ∈ s.slabs t ∨ g ∈ s.pool → g ∉ out ∧ g < s.fresh :=
    fun g hg => hg.elim (h.slab_out t g) (h.pool_out g)
  have helsewhere : ∀ t' g, t' ≠ t → g ∈ s.slabs t' → g ∉ l ++ p := by
    intro t' g ht hg hx
    rcases hmem g hx with hx | hx
    · exact ht (h.apart t' t g hg hx)
    · exact h.slab_pool t' g hg hx
  have hsplit : ∀ t' g, g ∈ update s.slabs t l t' →
      t' = t ∧ g ∈ l ∨ t' ≠ t ∧ g ∈ s.slabs t' := by
    intro t' g hg
    by_cases ht : t' = t
    · subst ht
      rw [update_self] at hg
      exact .inl ⟨rfl, hg⟩
    · rw [update_of_ne ht] at hg
      exact .inr ⟨ht, hg⟩
  have hdisj := List.nodup_append'.mp hnodup
  constructor
  case slab =>
    intro t'
    by_cases ht : t' = t
    · subst ht
      simpa using hdisj.1
    · simpa [update_of_ne ht] using h.slab t'
  case apart =>
    intro t₁ t₂ g h₁ h₂
    rcases hsplit t₁ g h₁ with ⟨rfl, hl₁⟩ | ⟨hne₁, hs₁⟩
    · rcases hsplit t₂ g h₂ with ⟨rfl, -⟩ | ⟨hne₂, hs₂⟩
      · rfl
      · exact absurd (List.mem_append_left p hl₁) (helsewhere t₂ g hne₂ hs₂)
    · rcases hsplit t₂ g h₂ with ⟨rfl, hl₂⟩ | ⟨-, hs₂⟩
      · exact absurd (List.mem_append_left p hl₂) (helsewhere t₁ g hne₁ hs₁)
      · exact h.apart t₁ t₂ g hs₁ hs₂
  case pool => exact hdisj.2.1
  case slab_pool =>
    intro t' g hg hp
    rcases hsplit t' g hg with ⟨-, hl⟩ | ⟨hne, hs⟩
    · exact hdisj.2.2 hl hp
    · exact helsewhere t' g hne hs (List.mem_append_right l hp)
  case slab_out =>
    intro t' g hg
    rcases hsplit t' g hg with ⟨-, hl⟩ | ⟨-, hs⟩
    · exact hcached g (hmem g (List.mem_append_left p hl))
    · exact h.slab_out t' g hs
  case pool_out => exact fun g hg => hcached g (hmem g (List.mem_append_right l hg))
  case below => exact h.below
  case count => exact h.count

theorem Sound.nodup (h : Sound s out) : (s.slabs t ++ s.pool).Nodup :=
  List.nodup_append'.mpr ⟨h.slab t, h.pool, fun g hs hp => h.slab_pool t g hs hp⟩

theorem Sound.globalRefill (h : Sound s out) : Sound (s.globalRefill c t) out := by
  have hperm : ((s.pool.take (max 1 c.batch) ++ s.slabs t) ++
      s.pool.drop (max 1 c.batch)).Perm (s.slabs t ++ s.pool) := by
    refine (List.Perm.append_right _ List.perm_append_comm).trans ?_
    rw [List.append_assoc, List.take_append_drop]
  refine h.exchange ?_ ?_
  · rw [hperm.nodup_iff]
    exact h.nodup
  · intro g hg
    exact List.mem_append.mp (hperm.mem_iff.mp hg)

theorem Sound.globalFlush (h : Sound s out) : Sound (s.globalFlush c t) out := by
  have hperm : ((s.slabs t).drop (max 1 c.batch) ++ ((s.slabs t).take (max 1 c.batch) ++
      s.pool)).Perm (s.slabs t ++ s.pool) := by
    rw [← List.append_assoc]
    refine List.Perm.append_right _ (List.perm_append_comm.trans ?_)
    rw [List.take_append_drop]
  refine h.exchange ?_ ?_
  · rw [hperm.nodup_iff]
    exact h.nodup
  · intro g hg
    exact List.mem_append.mp (hperm.mem_iff.mp hg)

theorem Sound.threadFlush (h : Sound s out) : Sound (s.threadFlush t) out := by
  refine h.exchange ?_ ?_
  · exact h.nodup
  · exact fun g hg => List.mem_append.mp hg

theorem Sound.reclaim (h : Sound s out) : Sound (s.reclaim t) out := by
  have hflush := h.threadFlush (t := t)
  exact ⟨hflush.slab, hflush.apart, List.nodup_nil, fun _ _ _ => List.not_mem_nil, hflush.slab_out,
    fun _ hg => absurd hg List.not_mem_nil, hflush.below, hflush.count⟩

theorem Sound.pop (h : Sound s out) (hs : s.pop t = some (s', g)) :
    g ∉ out ∧ Sound s' (insert g out) := by
  unfold State.pop at hs
  split at hs
  · cases hs
  · next l hl =>
    cases hs
    have hg : g ∈ s.slabs t := by
      rw [hl]
      exact List.mem_cons_self
    have hnodup := h.slab t
    rw [hl, List.nodup_cons] at hnodup
    have hold : ∀ t' g', g' ∈ update s.slabs t l t' → g' ∈ s.slabs t' ∧ g' ≠ g := by
      intro t' g' hg'
      by_cases ht : t' = t
      · subst ht
        rw [update_self] at hg'
        rw [hl]
        exact ⟨List.mem_cons_of_mem _ hg', fun hx => hnodup.1 (hx ▸ hg')⟩
      · rw [update_of_ne ht] at hg'
        exact ⟨hg', fun hx => ht (h.apart t' t g (hx ▸ hg') hg)⟩
    refine ⟨(h.slab_out t g hg).1, ?_⟩
    constructor
    case slab =>
      intro t'
      by_cases ht : t' = t
      · subst ht
        simpa using hnodup.2
      · simpa [update_of_ne ht] using h.slab t'
    case apart => exact fun t₁ t₂ g' h₁ h₂ => h.apart t₁ t₂ g' (hold t₁ g' h₁).1 (hold t₂ g' h₂).1
    case pool => exact h.pool
    case slab_pool => exact fun t' g' hg' => h.slab_pool t' g' (hold t' g' hg').1
    case slab_out =>
      intro t' g' hg'
      obtain ⟨hmem, hne⟩ := hold t' g' hg'
      obtain ⟨hout, hlt⟩ := h.slab_out t' g' hmem
      exact ⟨fun hx => (Set.mem_insert_iff.mp hx).elim hne hout, hlt⟩
    case pool_out =>
      intro g' hg'
      obtain ⟨hout, hlt⟩ := h.pool_out g' hg'
      refine ⟨fun hx => (Set.mem_insert_iff.mp hx).elim ?_ hout, hlt⟩
      rintro rfl
      exact h.slab_pool t g' hg hg'
    case below =>
      intro g' hg'
      rcases Set.mem_insert_iff.mp hg' with rfl | hg'
      · exact (h.slab_out t g' hg).2
      · exact h.below g' hg'
    case count =>
      have hcount := h.count
      have hcard := Set.ncard_insert_of_notMem (h.slab_out t g hg).1 h.finite
      simp only [hcard]
      omega

/-- The struct that is handed out is not in use. -/
theorem Sound.alloc {fault oom : Bool} (h : Sound s out)
    (hs : s.alloc c t fault oom = some (s', g)) : g ∉ out ∧ Sound s' (insert g out) := by
  unfold State.alloc at hs
  split at hs
  · cases hs
  · have hrefill : Sound (if s.slabs t = [] then s.globalRefill c t else s) out := by
      split
      · exact h.globalRefill
      · exact h
    generalize (if s.slabs t = [] then s.globalRefill c t else s) = s₁ at hs hrefill
    simp only at hs
    split at hs
    · next r hpop =>
      cases hs
      exact hrefill.pop hpop
    · split at hs
      · cases hs
      · cases hs
        have hnot : s₁.fresh ∉ out := fun hx => absurd (hrefill.below _ hx) (lt_irrefl _)
        refine ⟨hnot, ?_⟩
        constructor
        case slab => exact hrefill.slab
        case apart => exact hrefill.apart
        case pool => exact hrefill.pool
        case slab_pool => exact hrefill.slab_pool
        case slab_out =>
          intro t' g' hg'
          obtain ⟨hout, hlt⟩ := hrefill.slab_out t' g' hg'
          exact ⟨fun hx => (Set.mem_insert_iff.mp hx).elim hlt.ne hout, Nat.lt_succ_of_lt hlt⟩
        case pool_out =>
          intro g' hg'
          obtain ⟨hout, hlt⟩ := hrefill.pool_out g' hg'
          exact ⟨fun hx => (Set.mem_insert_iff.mp hx).elim hlt.ne hout, Nat.lt_succ_of_lt hlt⟩
        case below =>
          intro g' hg'
          rcases Set.mem_insert_iff.mp hg' with rfl | hg'
          · exact Nat.lt_succ_self _
          · exact Nat.lt_succ_of_lt (hrefill.below g' hg')
        case count =>
          have hcount := hrefill.count
          have hcard := Set.ncard_insert_of_notMem hnot hrefill.finite
          simp only [hcard]
          omega

theorem alloc_count {fault oom : Bool} (hs : s.alloc c t fault oom = some (s', g)) :
    s'.handed = s.handed + 1 ∧ s'.returned = s.returned := by
  unfold State.alloc at hs
  split at hs
  · cases hs
  · have hrefill : (if s.slabs t = [] then s.globalRefill c t else s).handed = s.handed ∧
        (if s.slabs t = [] then s.globalRefill c t else s).returned = s.returned := by
      split <;> exact ⟨rfl, rfl⟩
    generalize (if s.slabs t = [] then s.globalRefill c t else s) = s₁ at hs hrefill
    rw [← hrefill.1, ← hrefill.2]
    simp only at hs
    split at hs
    · next r hpop =>
      cases hs
      unfold State.pop at hpop
      split at hpop
      · cases hpop
      · cases hpop
        exact ⟨rfl, rfl⟩
    · split at hs
      · cases hs
      · cases hs
        exact ⟨rfl, rfl⟩

theorem free_count : (s.free c t g).handed = s.handed ∧
    (s.free c t g).returned = s.returned + 1 := by
  unfold State.free
  simp only
  split <;> exact ⟨rfl, rfl⟩

theorem Sound.free (h : Sound s out) (hg : g ∈ out) : Sound (s.free c t g) (out \ {g}) := by
  have hpush : Sound { s with
      slabs := update s.slabs t (g :: s.slabs t), returned := s.returned + 1 }
      (out \ {g}) := by
    have hcached : ∀ t', g ∉ s.slabs t' := fun t' hx => (h.slab_out t' g hx).1 hg
    have hsplit : ∀ t' g', g' ∈ update s.slabs t (g :: s.slabs t) t' →
        t' = t ∧ g' = g ∨ g' ≠ g ∧ g' ∈ s.slabs t' := by
      intro t' g' hg'
      by_cases ht : t' = t
      · subst ht
        rw [update_self, List.mem_cons] at hg'
        rcases hg' with rfl | hg'
        · exact .inl ⟨rfl, rfl⟩
        · exact .inr ⟨fun hx => hcached t' (hx ▸ hg'), hg'⟩
      · rw [update_of_ne ht] at hg'
        exact .inr ⟨fun hx => hcached t' (hx ▸ hg'), hg'⟩
    constructor
    case slab =>
      intro t'
      by_cases ht : t' = t
      · subst ht
        simpa using ⟨hcached t', h.slab t'⟩
      · simpa [update_of_ne ht] using h.slab t'
    case apart =>
      intro t₁ t₂ g' h₁ h₂
      rcases hsplit t₁ g' h₁ with ⟨rfl, rfl⟩ | ⟨hne, hs₁⟩
      · rcases hsplit t₂ g' h₂ with ⟨rfl, -⟩ | ⟨hne, -⟩
        · rfl
        · exact absurd rfl hne
      · rcases hsplit t₂ g' h₂ with ⟨-, hx⟩ | ⟨-, hs₂⟩
        · exact absurd hx hne
        · exact h.apart t₁ t₂ g' hs₁ hs₂
    case pool => exact h.pool
    case slab_pool =>
      intro t' g' hg'
      rcases hsplit t' g' hg' with ⟨-, rfl⟩ | ⟨-, hs⟩
      · exact fun hp => (h.pool_out g' hp).1 hg
      · exact h.slab_pool t' g' hs
    case slab_out =>
      intro t' g' hg'
      rcases hsplit t' g' hg' with ⟨-, rfl⟩ | ⟨-, hs⟩
      · exact ⟨fun hx => hx.2 rfl, h.below g' hg⟩
      · exact ⟨fun hx => (h.slab_out t' g' hs).1 hx.1, (h.slab_out t' g' hs).2⟩
    case pool_out =>
      exact fun g' hp => ⟨fun hx => (h.pool_out g' hp).1 hx.1, (h.pool_out g' hp).2⟩
    case below => exact fun g' hx => h.below g' hx.1
    case count =>
      have hcount := h.count
      have hcard := Set.ncard_sdiff_singleton_add_one hg h.finite
      simp only
      omega
  unfold State.free
  simp only
  split
  · exact hpush.globalFlush
  · exact hpush

end

end Stackweave.Slab
