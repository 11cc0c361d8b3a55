import Mathlib.Data.Int.Notation
import Mathlib.Data.List.Perm.Subperm
import Stackweave.HandleTable

/-!
# The reclaim of handle slots (`rl_handle.c`)

The handle table with `rl_handle_live` and with the stage of each registration: it
is live from the store that publishes it, dying from the drop of its last reference,
and done when its free function has been called. `regs`, `dead` and `frees` are the
registrations that were published, whose reclaim got to the free call, and whose
free function was called, in this order of events.

The counter is not read by the calls; it is taken together with the store before it
in `rl_handle_register` and with the free call in `rl_handle_reclaim`.
-/

namespace Stackweave.HandleTable

open Transition Function

inductive Stage
  | new
  | live
  | dying
  | done
  deriving DecidableEq

structure Book where
  s : State
  /-- `rl_handle_live` -/
  live : ℤ
  stage : ℕ → Stage
  regs : List ℕ
  dead : List ℕ
  frees : List ℕ

def Book.init (segBits maxSegs : ℕ) : Book :=
  { s := HandleTable.init segBits maxSegs, live := 0, stage := fun _ => .new, regs := [], dead := []
    frees := [] }

def Book.publish (b : Book) (r : ℕ) : Book :=
  { b with live := b.live + 1, stage := Function.update b.stage r .live, regs := b.regs ++ [r] }

def Book.close (b : Book) (r : ℕ) : Book :=
  { b with stage := Function.update b.stage r .dying }

/-- The free function is called if there is one and the pointer is not null. -/
def Book.finish (b : Book) (r : ℕ) (ptr : Option ℕ) (freeFn : Bool) : Book :=
  { b with
    live := b.live - 1
    stage := Function.update b.stage r .done
    dead := b.dead ++ [r]
    frees := if freeFn = true ∧ ptr ≠ none then b.frees ++ [r] else b.frees }

/-- What a step of the call `t` means for the registration in its slot. -/
def Book.note (b : Book) (t : Token) : Book :=
  match t, b.s.pc t with
  | .owner r, .stored _ => b.publish r
  | _, .deref _ h _ (.cas 0) =>
    let w := b.s.slots h.idx
    if w.gen = h.gen ∧ w.rc = 1 then b.close w.reg else b
  | _, .deref _ h _ (.free p f) => b.finish (b.s.slots h.idx).reg p f
  | _, _ => b

def Book.step (b : Book) (a : Action) : Option Book :=
  (HandleTable.step b.s a).map fun s' =>
    match a with
    | .step t => { b.note t with s := s' }
    | _ => { b with s := s' }

def books (segBits maxSegs : ℕ) : System Book Action where
  init b := b = .init segBits maxSegs
  step := Book.step

/-- The step takes the 2^32nd reference. -/
def overflows (s : State) : Action → Bool
  | .step t =>
    match s.pc t with
    | .pinCas _ h n =>
      decide ((s.slots h.idx).gen = h.gen ∧ (s.slots h.idx).rc = n + 1 ∧ span ≤ n + 2)
    | _ => false
  | _ => false

/-- The runs in which no generation wraps and no count overflows. -/
def bounded (segBits maxSegs : ℕ) : System Book Action :=
  (books segBits maxSegs).restrict fun b a => wraps b.s a = false ∧ overflows b.s a = false

/-! ### Stages and slots -/

/-- A reclaim that has not called the free function yet, with its slot. -/
def Pc.ending : Pc → Option ℕ
  | .deref _ h _ .clear | .deref _ h _ (.bump _ _) | .deref _ h _ (.free _ _) => some h.idx
  | _ => none

/-- The reclaim is of the registration whose reference it dropped, and has, or will
read, the arguments of it. -/
@[grind =]
def Caught (s : State) : Pc → Prop
  | .deref r h _ .clear => (s.slots h.idx).reg = r ∧
    (s.slots h.idx).ptr ≠ none ∧ (s.slots h.idx).freeFn = s.fnOf (s.slots h.idx).reg
  | .deref r h _ (.bump p f) | .deref r h _ (.free p f) => (s.slots h.idx).reg = r ∧
    p ≠ none ∧ f = s.fnOf (s.slots h.idx).reg
  | _ => True

theorem Pc.ending_excl {p : Pc} {i : ℕ} (h : p.ending = some i) : p.excl = some i := by
  unfold Pc.ending at h
  split at h
  case h_4 => cases h
  all_goals exact h

structure Ok (b : Book) : Prop where
  live : ∀ i, (b.s.slots i).refs ≠ [] → b.stage (b.s.slots i).reg = .live ∧
    (b.s.slots i).freeFn = b.s.fnOf (b.s.slots i).reg
  dying : ∀ t i, (b.s.pc t).ending = some i → b.stage (b.s.slots i).reg = .dying ∧
    (∃ h, (b.s.pc (.owner (b.s.slots i).reg)).handle = some h ∧ h.idx = i) ∧ Caught b.s (b.s.pc t)
  stored : ∀ r h, b.s.pc (.owner r) = .stored h → (b.s.slots h.idx).freeFn = b.s.fnOf r
  onLive : ∀ r, b.stage r = .live → ∃ h, (b.s.pc (.owner r)).handle = some h ∧
    (b.s.slots h.idx).reg = r ∧ (b.s.slots h.idx).refs ≠ []
  onDying : ∀ r, b.stage r = .dying → ∃ t i, (b.s.pc t).ending = some i ∧ (b.s.slots i).reg = r
  new : ∀ r, b.stage r = .new ↔ (b.s.pc (.owner r)).handle = none
  zero : (∀ i ∈ b.s.free, i ≠ 0) ∧ ∀ t, (b.s.pc t).excl ≠ some 0
  nonzero : ∀ i, (b.s.slots i).refs ≠ [] → i ≠ 0
  covered : ∀ i, 0 < i → i < b.s.size → (b.s.slots i).refs = [] →
    i ∈ b.s.free ∨ ∃ t, (b.s.pc t).excl = some i

section Keep

variable {b : Book} {s' : State} {k : Token} {p : Pc}

variable {i : ℕ}

/-- A caught reclaim stays so when its slot and the arguments do. -/
theorem Caught.congr {s s' : State} {p : Pc} (h : Caught s p) (hi : p.ending = some i)
    (hslot : s'.slots i = s.slots i) (hfn : s'.fnOf (s.slots i).reg = s.fnOf (s.slots i).reg) :
    Caught s' p := by
  unfold Pc.ending at hi
  split at hi
  case h_4 => cases hi
  all_goals
    cases hi
    simp only [Caught, hslot, hfn] at h ⊢
    exact h

/-- The steps that change no stage. -/
theorem Ok.keep (h : Ok b) (hpc : s'.pc = fun u => if u = k then p else b.s.pc u)
    (hrefs : ∀ i, (s'.slots i).refs = [] ↔ (b.s.slots i).refs = [])
    (hreg : ∀ i, (s'.slots i).reg = (b.s.slots i).reg)
    (hfn : ∀ i, (b.s.slots i).refs ≠ [] → (s'.slots i).freeFn = (b.s.slots i).freeFn)
    (hfnOf : ∀ r, b.stage r ≠ .new → s'.fnOf r = b.s.fnOf r)
    (hending : p.ending = (b.s.pc k).ending) (hcaught : Caught s' p)
    (hsame : ∀ u, u ≠ k → ∀ i, (b.s.pc u).ending = some i → s'.slots i = b.s.slots i)
    (hhandle : ∀ r, k = .owner r → p.handle = (b.s.pc k).handle)
    (hstored : ∀ r a, s'.pc (.owner r) = .stored a → (s'.slots a.idx).freeFn = s'.fnOf r)
    (hzero : (∀ i ∈ s'.free, i ≠ 0) ∧ p.excl ≠ some 0)
    (hcovered : ∀ i, 0 < i → i < s'.size → (s'.slots i).refs = [] →
      i ∈ s'.free ∨ ∃ t, (s'.pc t).excl = some i) : Ok { b with s := s' } := by
  have hself : s'.pc k = p := by rw [hpc]; exact if_pos rfl
  have hother : ∀ u, u ≠ k → s'.pc u = b.s.pc u := fun u hu => by rw [hpc]; exact if_neg hu
  have hhan : ∀ r, (s'.pc (.owner r)).handle = (b.s.pc (.owner r)).handle := fun r => by
    by_cases hk : Token.owner r = k
    · rw [hk, hself]
      exact hhandle r hk.symm
    · rw [hother _ hk]
  have hend : ∀ u, (s'.pc u).ending = (b.s.pc u).ending := fun u => by
    by_cases hk : u = k
    · rw [hk, hself]
      exact hending
    · rw [hother _ hk]
  refine ⟨fun i hi => ?_, fun t i ht => ?_, hstored, fun r hr => ?_, fun r hr => ?_, fun r => ?_,
    ⟨hzero.1, fun t => ?_⟩, fun i hi => h.nonzero i (mt (hrefs i).mpr hi), hcovered⟩
  · have hold := mt (hrefs i).mpr hi
    obtain ⟨hlive, hf⟩ := h.live i hold
    dsimp only
    rw [hreg, hfn i hold, hfnOf _ (by rw [hlive]; decide)]
    exact ⟨hlive, hf⟩
  · dsimp only at ht ⊢
    have hold := (hend t).symm.trans ht
    obtain ⟨hstage, ⟨a, ha, hai⟩, hc⟩ := h.dying t i hold
    rw [hreg, hhan]
    refine ⟨hstage, ⟨a, ha, hai⟩, ?_⟩
    by_cases hk : t = k
    · rw [hk, hself]
      exact hcaught
    · rw [hother t hk]
      exact hc.congr hold (hsame t hk i hold) (hfnOf _ (by rw [hstage]; decide))
  · obtain ⟨a, ha, hra, hne⟩ := h.onLive r hr
    exact ⟨a, (hhan r).trans ha, (hreg _).trans hra, mt (hrefs _).mp hne⟩
  · obtain ⟨t, i, ht, hi⟩ := h.onDying r hr
    exact ⟨t, i, (hend t).trans ht, (hreg i).trans hi⟩
  · exact (h.new r).trans (by rw [← hhan r])
  · by_cases hk : t = k
    · rw [hk]
      dsimp only
      rw [hself]
      exact hzero.2
    · dsimp only
      rw [hother t hk]
      exact h.zero.2 t

theorem Caught.of_none {s : State} {p : Pc} (h : p.ending = none) : Caught s p := by
  unfold Pc.ending at h
  split at h
  case h_4 hc hb hf =>
    unfold Caught
    split
    · exact absurd rfl (hc _ _ _)
    · exact absurd rfl (hb _ _ _ _ _)
    · exact absurd rfl (hf _ _ _ _ _)
    · trivial
  all_goals cases h

theorem goto_excl {s : State} (hp : p.excl = (s.pc k).excl) (u : Token) :
    ((s.goto k p).pc u).excl = (s.pc u).excl := by
  by_cases hu : u = k
  · rw [hu, goto_pc_self, hp]
  · rw [goto_pc_other s p hu]

/-- A call moves on and nothing else changes. -/
theorem Ok.plain (h : Ok b) (hold : (b.s.pc k).ending = none) (hnew : p.ending = none)
    (hexcl : p.excl = (b.s.pc k).excl) (hhandle : ∀ r, k = .owner r → p.handle = (b.s.pc k).handle)
    (hnot : ∀ a, p ≠ .stored a) : Ok { b with s := b.s.goto k p } := by
  refine h.keep rfl (fun _ => Iff.rfl) (fun _ => rfl) (fun _ _ => rfl) (fun _ _ => rfl)
    (hnew.trans hold.symm) (.of_none hnew) (fun _ _ _ _ => rfl) hhandle (fun r a hr => ?_)
    ⟨h.zero.1, hexcl ▸ h.zero.2 k⟩ fun i hpos hi hrefs => ?_
  · by_cases hk : Token.owner r = k
    · rw [hk, goto_pc_self] at hr
      exact absurd hr (hnot a)
    · rw [goto_pc_other _ _ hk] at hr
      exact h.stored r a hr
  · refine (h.covered i hpos hi hrefs).imp_right fun ⟨t, ht⟩ => ⟨t, ?_⟩
    rw [goto_excl hexcl, ht]

/-- The slot of a call that has it for itself changes, and stays without references. -/
theorem Ok.touch (h : Ok b) (hinv : Inv b.s) {w : Slot} (hi : (b.s.pc k).excl = some i)
    (hw : w.refs = []) (hreg : w.reg = (b.s.slots i).reg)
    (hexcl : p.excl = some i) (hending : p.ending = (b.s.pc k).ending)
    (hcaught : Caught ((b.s.setSlot i w).goto k p) p)
    (hhandle : ∀ r, k = .owner r → p.handle = (b.s.pc k).handle)
    (hstored : ∀ r a, k = .owner r → p = .stored a → a.idx = i ∧ w.freeFn = b.s.fnOf r) :
    Ok { b with s := (b.s.setSlot i w).goto k p } := by
  obtain ⟨hempty, -, -, halone⟩ := hinv.alone k i hi
  have hat : ((b.s.setSlot i w).goto k p).slots i = w := if_pos rfl
  have hne : ∀ j, j ≠ i → ((b.s.setSlot i w).goto k p).slots j = b.s.slots j := fun j hj => if_neg hj
  have hrefs : ∀ j, (((b.s.setSlot i w).goto k p).slots j).refs = (b.s.slots j).refs := fun j => by
    by_cases hj : j = i
    · rw [hj, hat, hw, hempty]
    · rw [hne j hj]
  refine h.keep rfl (fun j => by rw [hrefs]) (fun j => ?_) (fun j hj => ?_) (fun _ _ => rfl) hending
    hcaught (fun u hu j hj => ?_) hhandle (fun r a hr => ?_)
    ⟨h.zero.1, by rw [hexcl, ← hi]; exact h.zero.2 k⟩ fun j hpos hj hjr => ?_
  · by_cases hj : j = i
    · rw [hj, hat, hreg]
    · rw [hne j hj]
  · rw [hne j fun he => hj (he ▸ hempty)]
  · refine hne j fun he => hu (halone u ?_)
    rw [← he]
    exact Pc.ending_excl hj
  · by_cases hk : Token.owner r = k
    · rw [hk, goto_pc_self] at hr
      obtain ⟨ha, hf⟩ := hstored r a hk.symm hr
      rw [ha, hat]
      exact hf
    · rw [goto_pc_other _ _ hk] at hr
      have hai : a.idx ≠ i := fun he => hk (halone (.owner r) (by
        rw [show b.s.pc (.owner r) = .stored a from hr, ← he]
        rfl))
      rw [hne _ hai]
      exact h.stored r a hr
  · rw [hrefs] at hjr
    refine (h.covered j hpos hj hjr).imp_right fun ⟨t, ht⟩ => ⟨t, ?_⟩
    rw [goto_excl (s := b.s.setSlot i w) (hexcl.trans hi.symm)]
    exact ht

/-- The references to a slot change, and some are left. -/
theorem Ok.recount (h : Ok b) (hinv : Inv b.s) {n : ℕ} {l : List Token}
    (hi : (b.s.slots i).refs ≠ []) (hl : l ≠ []) (hold : (b.s.pc k).ending = none)
    (hnew : p.ending = none) (hexcl : p.excl = (b.s.pc k).excl)
    (hhandle : ∀ r, k = .owner r → p.handle = (b.s.pc k).handle) (hnot : ∀ a, p ≠ .stored a) :
    Ok { b with s := (b.s.setSlot i { b.s.slots i with rc := n, refs := l }).goto k p } := by
  generalize hs' : (b.s.setSlot i { b.s.slots i with rc := n, refs := l }).goto k p = s'
  have hat : s'.slots i = { b.s.slots i with rc := n, refs := l } := by
    rw [← hs']
    exact if_pos rfl
  have hne : ∀ j, j ≠ i → s'.slots j = b.s.slots j := fun j hj => by
    rw [← hs']
    exact if_neg hj
  have hpc : s'.pc = fun u => if u = k then p else b.s.pc u := by
    rw [← hs']
    rfl
  have hfree : s'.free = b.s.free ∧ s'.size = b.s.size ∧ s'.fnOf = b.s.fnOf := by
    rw [← hs']
    exact ⟨rfl, rfl, rfl⟩
  have hexcl' : ∀ u, (s'.pc u).excl = (b.s.pc u).excl := fun u => by
    rw [← hs']
    exact goto_excl (s := b.s.setSlot i _) hexcl u
  refine h.keep hpc (fun j => ?_) (fun j => ?_) (fun j _ => ?_) (fun r _ => by rw [hfree.2.2])
    (hnew.trans hold.symm) (.of_none hnew) (fun u hu j hj => ?_) hhandle (fun r a hr => ?_)
    ⟨by rw [hfree.1]; exact h.zero.1, hexcl ▸ h.zero.2 k⟩ fun j hpos hj hjr => ?_
  · by_cases hj : j = i
    · rw [hj, hat]
      exact ⟨fun he => absurd he hl, fun he => absurd he hi⟩
    · rw [hne j hj]
  · by_cases hj : j = i
    · rw [hj, hat]
    · rw [hne j hj]
  · by_cases hj : j = i
    · rw [hj, hat]
    · rw [hne j hj]
  · refine hne j fun he => hi ?_
    exact he ▸ (hinv.alone u j (Pc.ending_excl hj)).1
  · have hrk : Token.owner r ≠ k := fun hk => by
      rw [hpc] at hr
      exact hnot a ((if_pos hk).symm.trans hr)
    have hold' : b.s.pc (.owner r) = .stored a := by
      rw [hpc] at hr
      exact (if_neg hrk).symm.trans hr
    have hai : a.idx ≠ i := fun he => hi (he ▸ (hinv.alone (.owner r) a.idx (by
      rw [hold']
      rfl)).1)
    rw [hne _ hai, hfree.2.2]
    exact h.stored r a hold'
  · have hji : j ≠ i := fun he => by
      rw [he, hat] at hjr
      exact hl hjr
    rw [hne j hji] at hjr
    rw [hfree.2.1] at hj
    rw [hfree.1]
    exact (h.covered j hpos hj hjr).imp_right fun ⟨t, ht⟩ => ⟨t, (hexcl' t).trans ht⟩

theorem Ok.push (h : Ok b) (hi : (b.s.pc k).excl = some i)
    (hold : (b.s.pc k).ending = none) (hnew : p.ending = none) (hexcl : p.excl = none)
    (hhandle : ∀ r, k = .owner r → p.handle = (b.s.pc k).handle) (hnot : ∀ a, p ≠ .stored a) :
    Ok { b with s := { b.s with free := i :: b.s.free }.goto k p } := by
  refine h.keep rfl (fun _ => Iff.rfl) (fun _ => rfl) (fun _ _ => rfl) (fun _ _ => rfl)
    (hnew.trans hold.symm) (.of_none hnew) (fun _ _ _ _ => rfl) hhandle (fun r a hr => ?_)
    ⟨fun j hj => ?_, by rw [hexcl]; exact (by rintro ⟨⟩)⟩ fun j hpos hj hrefs => ?_
  · by_cases hk : Token.owner r = k
    · rw [hk, goto_pc_self] at hr
      exact absurd hr (hnot a)
    · rw [goto_pc_other _ _ hk] at hr
      exact h.stored r a hr
  · rcases List.mem_cons.mp hj with rfl | hj
    · exact fun he => h.zero.2 k (by rw [hi, he])
    · exact h.zero.1 j hj
  · by_cases hji : j = i
    · exact .inl (List.mem_cons.mpr (.inl hji))
    · rcases h.covered j hpos hj hrefs with hf | ⟨t, ht⟩
      · exact .inl (List.mem_cons_of_mem i hf)
      · refine .inr ⟨t, ?_⟩
        have htk : t ≠ k := fun he => hji (by
          rw [he, hi] at ht
          exact (Option.some.inj ht).symm)
        rw [goto_pc_other _ _ htk]
        exact ht

theorem Ok.pop {r ptr : ℕ} {f : Bool} {rest : List ℕ} (h : Ok b)
    (hk : b.s.pc (.owner r) = .fresh) (hfree : b.s.free = i :: rest)
    (hs : s' = { b.s with
      free := rest
      ptrOf := fun q => if q = r then ptr else b.s.ptrOf q
      fnOf := fun q => if q = r then f else b.s.fnOf q }.goto (.owner r) (.popped i)) :
    Ok { b with s := s' } := by
  subst hs
  have hstage : b.stage r = .new := (h.new r).mpr (by rw [hk]; rfl)
  have hfn : ∀ q, b.stage q ≠ .new → (if q = r then f else b.s.fnOf q) = b.s.fnOf q := by
    intro q hq
    have hqr : q ≠ r := by
      rintro rfl
      exact hq hstage
    exact if_neg hqr
  have hi : i ≠ 0 := h.zero.1 i (by rw [hfree]; exact List.mem_cons_self)
  refine h.keep rfl (fun _ => Iff.rfl) (fun _ => rfl) (fun _ _ => rfl) hfn (by rw [hk]; rfl) trivial
    (fun _ _ _ _ => rfl) (fun _ _ => by rw [hk]; rfl) (fun q a hq => ?_)
    ⟨fun j hj => h.zero.1 j (by rw [hfree]; exact List.mem_cons_of_mem i hj),
      fun he => hi (Option.some.inj he)⟩ fun j hpos hj hrefs => ?_
  · have hqr : q ≠ r := fun he => by
      rw [he, goto_pc_self] at hq
      cases hq
    rw [goto_pc_other _ _ fun he => hqr (Token.owner.inj he)] at hq
    refine (h.stored q a hq).trans ?_
    exact (if_neg hqr).symm
  · rcases h.covered j hpos hj hrefs with hf | ⟨t, ht⟩
    · rw [hfree] at hf
      rcases List.mem_cons.mp hf with rfl | hf
      · exact .inr ⟨.owner r, by rw [goto_pc_self]; rfl⟩
      · exact .inl hf
    · refine .inr ⟨t, ?_⟩
      have htr : t ≠ .owner r := fun he => by
        rw [he, hk] at ht
        cases ht
      rw [goto_pc_other _ _ htr]
      exact ht

theorem mem_segment_of {segBits seg : ℕ} (hlo : seg * 2 ^ segBits ≤ i)
    (hhi : i < (seg + 1) * 2 ^ segBits) (hi : 0 < i) : i ∈ segment segBits seg := by
  rw [Nat.succ_mul] at hhi
  refine List.mem_filter.mpr ⟨List.mem_reverse.mpr (List.mem_map.mpr ?_), ?_⟩
  · exact ⟨i - seg * 2 ^ segBits, List.mem_range.mpr (by omega), by omega⟩
  · exact decide_eq_true (Nat.ne_of_gt hi)

theorem Ok.grow (h : Ok b) : Ok { b with s := b.s.grow } := by
  refine ⟨h.live, h.dying, h.stored, h.onLive, h.onDying, h.new, ⟨fun i hi => ?_, h.zero.2⟩,
    h.nonzero, fun i hpos hi hrefs => ?_⟩
  · rcases List.mem_append.mp hi with hi | hi
    · exact of_decide_eq_true (List.mem_filter.mp hi).2
    · exact h.zero.1 i hi
  · by_cases hlt : i < b.s.size
    · exact (h.covered i hpos hlt hrefs).imp_left (List.mem_append_right _)
    · exact .inl (List.mem_append_left _ (mem_segment_of (Nat.not_lt.mp hlt) hi hpos))

end Keep

/-! ### The stages move on -/

section Stages

variable {b : Book}

theorem Ok.publish (h : Ok b) (hinv : Inv b.s) {r : ℕ} {a : Handle}
    (hk : b.s.pc (.owner r) = .stored a) :
    Ok { b.publish r with
      s := (b.s.setSlot a.idx { b.s.slots a.idx with
        gen := a.gen, rc := 1, reg := r, refs := [.owner r] }).goto (.owner r) (.holds r a none) } := by
  have hx : (b.s.pc (.owner r)).excl = some a.idx := by rw [hk]; rfl
  obtain ⟨hempty, -, -, halone⟩ := hinv.alone _ _ hx
  have hnew : b.stage r = .new := (h.new r).mpr (by rw [hk]; rfl)
  generalize hs' : (b.s.setSlot a.idx { b.s.slots a.idx with
    gen := a.gen, rc := 1, reg := r, refs := [.owner r] }).goto (.owner r) (.holds r a none) = s'
  have hat : s'.slots a.idx = { b.s.slots a.idx with
      gen := a.gen, rc := 1, reg := r, refs := [.owner r] } := by
    rw [← hs']
    exact if_pos rfl
  have hne : ∀ j, j ≠ a.idx → s'.slots j = b.s.slots j := fun j hj => by
    rw [← hs']
    exact if_neg hj
  have hself : s'.pc (.owner r) = .holds r a none := by
    rw [← hs']
    exact goto_pc_self ..
  have hother : ∀ u, u ≠ .owner r → s'.pc u = b.s.pc u := fun u hu => by
    rw [← hs']
    exact goto_pc_other _ _ hu
  have hfields : s'.free = b.s.free ∧ s'.size = b.s.size ∧ s'.fnOf = b.s.fnOf := by
    rw [← hs']
    exact ⟨rfl, rfl, rfl⟩
  have hstage : ∀ q, b.stage q ≠ .new → q ≠ r ∧ update b.stage r .live q = b.stage q :=
    fun q hq =>
      have hqr : q ≠ r := by
        rintro rfl
        exact hq hnew
      ⟨hqr, update_of_ne hqr ..⟩
  have howner : ∀ q, q ≠ r → s'.pc (.owner q) = b.s.pc (.owner q) := fun q hq =>
    hother _ fun he => hq (Token.owner.inj he)
  refine ⟨fun i hi => ?_, fun t i ht => ?_, fun q c hq => ?_, fun q hq => ?_, fun q hq => ?_,
    fun q => ?_, ⟨by dsimp only; rw [hfields.1]; exact h.zero.1, fun t => ?_⟩, fun i hi => ?_,
    fun i hpos hi hrefs => ?_⟩
  all_goals dsimp only [Book.publish] at *
  · by_cases hia : i = a.idx
    · rw [hia, hat, hfields.2.2]
      exact ⟨update_self .., h.stored r a hk⟩
    · rw [hne i hia] at hi ⊢
      obtain ⟨hlive, hf⟩ := h.live i hi
      rw [(hstage _ (by rw [hlive]; decide)).2, hfields.2.2]
      exact ⟨hlive, hf⟩
  · have htr : t ≠ .owner r := fun he => by
      rw [he, hself] at ht
      cases ht
    rw [hother t htr] at ht ⊢
    have hia : i ≠ a.idx := fun he => htr (halone t (he ▸ Pc.ending_excl ht))
    obtain ⟨hdying, hhandle, hc⟩ := h.dying t i ht
    obtain ⟨hqr, hsame⟩ := hstage _ (show b.stage (b.s.slots i).reg ≠ .new by rw [hdying]; decide)
    rw [hne i hia, hsame, howner _ hqr]
    exact ⟨hdying, hhandle, hc.congr ht (hne i hia) (by rw [hfields.2.2])⟩
  · have hqr : q ≠ r := fun he => by
      rw [he, hself] at hq
      cases hq
    rw [howner q hqr] at hq
    have hca : c.idx ≠ a.idx := fun he => hqr (Token.owner.inj (halone (.owner q) (by
      rw [hq, ← he]
      rfl)))
    rw [hne _ hca, hfields.2.2]
    exact h.stored q c hq
  · by_cases hqr : q = r
    · rw [hqr, hself]
      exact ⟨a, rfl, by rw [hat], by rw [hat]; exact List.cons_ne_nil _ _⟩
    · rw [update_of_ne hqr] at hq
      obtain ⟨c, hc, hreg, hrefs⟩ := h.onLive q hq
      have hca : c.idx ≠ a.idx := fun he => hrefs (he ▸ hempty)
      exact ⟨c, by rw [howner q hqr, hc], by rw [hne _ hca, hreg], by rw [hne _ hca]; exact hrefs⟩
  · have hqr : q ≠ r := fun he => by
      rw [he, update_self] at hq
      cases hq
    rw [update_of_ne hqr] at hq
    obtain ⟨t, i, ht, hi⟩ := h.onDying q hq
    have htr : t ≠ .owner r := fun he => by
      rw [he, hk] at ht
      cases ht
    have hia : i ≠ a.idx := fun he => htr (halone t (he ▸ Pc.ending_excl ht))
    exact ⟨t, i, by rw [hother t htr, ht], by rw [hne i hia, hi]⟩
  · by_cases hqr : q = r
    · rw [hqr, update_self, hself]
      exact ⟨by rintro ⟨⟩, by rintro ⟨⟩⟩
    · rw [update_of_ne hqr, howner q hqr]
      exact h.new q
  · by_cases htr : t = .owner r
    · rw [htr, hself]
      rintro ⟨⟩
    · rw [hother t htr]
      exact h.zero.2 t
  · by_cases hia : i = a.idx
    · exact fun he => h.zero.2 (.owner r) (by rw [hx, ← hia, he])
    · rw [hne i hia] at hi
      exact h.nonzero i hi
  · have hia : i ≠ a.idx := fun he => by
      rw [he, hat] at hrefs
      cases hrefs
    rw [hne i hia] at hrefs
    rw [hfields.1]
    rw [hfields.2.1] at hi
    refine (h.covered i hpos hi hrefs).imp_right fun ⟨t, ht⟩ => ⟨t, ?_⟩
    have htr : t ≠ .owner r := fun he => hia (by
      rw [he, hx] at ht
      exact (Option.some.inj ht).symm)
    rw [hother t htr, ht]

/-- No two slots with references hold the same registration. -/
theorem Inv.reg_inj {s : State} (h : Inv s) {i j : ℕ} (hi : (s.slots i).refs ≠ [])
    (hj : (s.slots j).refs ≠ []) (hreg : (s.slots i).reg = (s.slots j).reg) : i = j := by
  have hhandle := (h.current i hi).1
  rw [hreg, (h.current j hj).1] at hhandle
  exact (congrArg Handle.idx (Option.some.inj hhandle)).symm

theorem Ok.close (h : Ok b) (hinv : Inv b.s) {k : Token} {r : ℕ} {a : Handle} {wait : Bool}
    {w : Slot} {rec : ℕ → Bool} (hk : b.s.pc k = .deref r a wait (.cas 0))
    (hold : (b.s.slots a.idx).refs ≠ []) (hreg₀ : (b.s.slots a.idx).reg = r)
    (hw : w = { b.s.slots a.idx with rc := 0, refs := [] }) :
    Ok { b.close (b.s.slots a.idx).reg with
      s := { b.s.setSlot a.idx w with reclaimed := rec }.goto k (.deref r a wait .clear) } := by
  subst hw
  generalize hs' : State.goto _ k (.deref r a wait .clear) = s'
  have hat : s'.slots a.idx = { b.s.slots a.idx with rc := 0, refs := [] } := by
    rw [← hs']
    exact if_pos rfl
  have hne : ∀ j, j ≠ a.idx → s'.slots j = b.s.slots j := fun j hj => by
    rw [← hs']
    exact if_neg hj
  have hreg : ∀ j, (s'.slots j).reg = (b.s.slots j).reg ∧
      (s'.slots j).freeFn = (b.s.slots j).freeFn := fun j => by
    by_cases hj : j = a.idx
    · rw [hj, hat]
      exact ⟨rfl, rfl⟩
    · rw [hne j hj]
      exact ⟨rfl, rfl⟩
  have hself : s'.pc k = .deref r a wait .clear := by
    rw [← hs']
    exact goto_pc_self ..
  have hother : ∀ u, u ≠ k → s'.pc u = b.s.pc u := fun u hu => by
    rw [← hs']
    exact goto_pc_other _ _ hu
  have hfields : s'.free = b.s.free ∧ s'.size = b.s.size ∧ s'.fnOf = b.s.fnOf := by
    rw [← hs']
    exact ⟨rfl, rfl, rfl⟩
  have hhan : ∀ q, (s'.pc (.owner q)).handle = (b.s.pc (.owner q)).handle := fun q => by
    by_cases hq : Token.owner q = k
    · rw [hq, hself, hk]
      rfl
    · rw [hother _ hq]
  obtain ⟨hlive, hfn⟩ := h.live a.idx hold
  obtain ⟨hhandle, hptr, -, -⟩ := hinv.current a.idx hold
  refine ⟨fun i hi => ?_, fun t i ht => ?_, fun q c hq => ?_, fun q hq => ?_, fun q hq => ?_,
    fun q => ?_, ⟨by dsimp only; rw [hfields.1]; exact h.zero.1, fun t => ?_⟩, fun i hi => ?_,
    fun i hpos hi hrefs => ?_⟩
  all_goals dsimp only [Book.close] at *
  · have hia : i ≠ a.idx := by
      rintro rfl
      rw [hat] at hi
      exact hi rfl
    rw [hne i hia] at hi ⊢
    rw [hfields.2.2, update_of_ne fun he => hia (hinv.reg_inj hi hold he)]
    exact h.live i hi
  · by_cases htk : t = k
    · rw [htk, hself] at ht ⊢
      cases ht
      rw [hat, hhan, update_self]
      refine ⟨rfl, ⟨_, hhandle, rfl⟩, ?_⟩
      simp only [Caught, hat, hfields.2.2]
      exact ⟨hreg₀, by rw [hptr]; exact Option.some_ne_none _, hfn⟩
    · rw [hother t htk] at ht ⊢
      obtain ⟨hdying, hh, hc⟩ := h.dying t i ht
      have hia : i ≠ a.idx := by
        rintro rfl
        exact hold (hinv.alone t a.idx (Pc.ending_excl ht)).1
      have hqr : (b.s.slots i).reg ≠ (b.s.slots a.idx).reg := fun he => by
        rw [he, hlive] at hdying
        cases hdying
      rw [hne i hia, hhan, update_of_ne hqr]
      exact ⟨hdying, hh, hc.congr ht (hne i hia) (by rw [hfields.2.2])⟩
  · have hqk : Token.owner q ≠ k := fun he => by
      rw [he, hself] at hq
      cases hq
    rw [hother _ hqk] at hq
    rw [(hreg _).2, hfields.2.2]
    exact h.stored q c hq
  · have hqr : q ≠ (b.s.slots a.idx).reg := by
      rintro rfl
      rw [update_self] at hq
      cases hq
    rw [update_of_ne hqr] at hq
    obtain ⟨c, hc, hcr, hrefs⟩ := h.onLive q hq
    have hca : c.idx ≠ a.idx := fun he => hqr (by rw [← hcr, he])
    exact ⟨c, (hhan q).trans hc, by rw [hne _ hca, hcr], by rw [hne _ hca]; exact hrefs⟩
  · by_cases hqr : q = (b.s.slots a.idx).reg
    · exact ⟨k, a.idx, by rw [hself]; rfl, by rw [hat, hqr]⟩
    · rw [update_of_ne hqr] at hq
      obtain ⟨t, i, ht, hi⟩ := h.onDying q hq
      have htk : t ≠ k := by
        rintro rfl
        rw [hk] at ht
        cases ht
      exact ⟨t, i, by rw [hother t htk, ht], (hreg i).1.trans hi⟩
  · rw [hhan]
    by_cases hqr : q = (b.s.slots a.idx).reg
    · rw [hqr, update_self, hhandle]
      exact ⟨by rintro ⟨⟩, by rintro ⟨⟩⟩
    · rw [update_of_ne hqr]
      exact h.new q
  · by_cases htk : t = k
    · rw [htk, hself]
      exact fun he => h.nonzero a.idx hold (Option.some.inj he)
    · rw [hother t htk]
      exact h.zero.2 t
  · have hia : i ≠ a.idx := by
      rintro rfl
      rw [hat] at hi
      exact hi rfl
    rw [hne i hia] at hi
    exact h.nonzero i hi
  · by_cases hia : i = a.idx
    · exact .inr ⟨k, by rw [hself, hia]; rfl⟩
    · rw [hne i hia] at hrefs
      rw [hfields.1]
      rw [hfields.2.1] at hi
      refine (h.covered i hpos hi hrefs).imp_right fun ⟨t, ht⟩ => ⟨t, ?_⟩
      have htk : t ≠ k := by
        rintro rfl
        rw [hk] at ht
        cases ht
      rw [hother t htk, ht]

theorem Ok.finish (h : Ok b) (hinv : Inv b.s) {k : Token} {r : ℕ} {a : Handle} {wait : Bool}
    {p : Option ℕ} {f : Bool} {l : List ℕ} (hk : b.s.pc k = .deref r a wait (.free p f)) :
    Ok { b.finish (b.s.slots a.idx).reg p f with
      s := { b.s with freed := l }.goto k (.deref r a wait .push) } := by
  have hend : (b.s.pc k).ending = some a.idx := by rw [hk]; rfl
  obtain ⟨hdying, ⟨c₀, hc₀, hci₀⟩, -⟩ := h.dying k a.idx hend
  obtain ⟨hempty, -, -, halone⟩ := hinv.alone k a.idx (Pc.ending_excl hend)
  have hexcl := goto_excl (s := { b.s with freed := l }) (k := k) (p := .deref r a wait .push)
    (by dsimp only; rw [hk]; rfl)
  generalize hs' : State.goto _ k (.deref r a wait .push) = s' at hexcl
  have hslots : s'.slots = b.s.slots ∧ s'.free = b.s.free ∧ s'.size = b.s.size ∧
      s'.fnOf = b.s.fnOf := by
    rw [← hs']
    exact ⟨rfl, rfl, rfl, rfl⟩
  have hself : s'.pc k = .deref r a wait .push := by
    rw [← hs']
    exact goto_pc_self ..
  have hother : ∀ u, u ≠ k → s'.pc u = b.s.pc u := fun u hu => by
    rw [← hs']
    exact goto_pc_other _ _ hu
  have hhan : ∀ q, (s'.pc (.owner q)).handle = (b.s.pc (.owner q)).handle := fun q => by
    by_cases hq : Token.owner q = k
    · rw [hq, hself, hk]
      rfl
    · rw [hother _ hq]
  obtain ⟨hslots, hfree, hsize, hfnOf⟩ := hslots
  have hstage : ∀ q, b.stage q = .live → q ≠ (b.s.slots a.idx).reg := by
    rintro q hq rfl
    rw [hdying] at hq
    cases hq
  refine ⟨fun i hi => ?_, fun t i ht => ?_, fun q c hq => ?_, fun q hq => ?_, fun q hq => ?_,
    fun q => ?_, ⟨by dsimp only; rw [hfree]; exact h.zero.1, fun t => ?_⟩, fun i hi => ?_,
    fun i hpos hi hrefs => ?_⟩
  all_goals dsimp only [Book.finish] at *
  · rw [hslots] at hi ⊢
    obtain ⟨hlive, hf⟩ := h.live i hi
    rw [hfnOf, update_of_ne (hstage _ hlive)]
    exact ⟨hlive, hf⟩
  · have htk : t ≠ k := by
      rintro rfl
      rw [hself] at ht
      cases ht
    rw [hother t htk] at ht ⊢
    obtain ⟨hd, ⟨c, hc, hci⟩, hcaught⟩ := h.dying t i ht
    have hia : i ≠ a.idx := by
      rintro rfl
      exact htk (halone t (Pc.ending_excl ht))
    -- two slots hold two registrations, since each is in its owner's handle
    have hqr : (b.s.slots i).reg ≠ (b.s.slots a.idx).reg := fun he => by
      rw [he, hc₀] at hc
      cases hc
      exact hia (hci.symm.trans hci₀)
    rw [hslots, hhan, update_of_ne hqr]
    exact ⟨hd, ⟨c, hc, hci⟩, hcaught.congr ht (by rw [hslots]) (by rw [hfnOf])⟩
  · have hqk : Token.owner q ≠ k := fun he => by
      rw [he, hself] at hq
      cases hq
    rw [hother _ hqk] at hq
    rw [hslots, hfnOf]
    exact h.stored q c hq
  · have hqr : q ≠ (b.s.slots a.idx).reg := by
      rintro rfl
      rw [update_self] at hq
      cases hq
    rw [update_of_ne hqr] at hq
    rw [hhan, hslots]
    exact h.onLive q hq
  · have hqr : q ≠ (b.s.slots a.idx).reg := by
      rintro rfl
      rw [update_self] at hq
      cases hq
    rw [update_of_ne hqr] at hq
    obtain ⟨t, i, ht, hi⟩ := h.onDying q hq
    have htk : t ≠ k := by
      rintro rfl
      rw [hend] at ht
      cases ht
      exact hqr hi.symm
    exact ⟨t, i, by rw [hother t htk, ht], by rw [hslots, hi]⟩
  · rw [hhan]
    by_cases hqr : q = (b.s.slots a.idx).reg
    · rw [hqr, update_self, hc₀]
      exact ⟨by rintro ⟨⟩, by rintro ⟨⟩⟩
    · rw [update_of_ne hqr]
      exact h.new q
  · rw [hexcl]
    exact h.zero.2 t
  · rw [hslots] at hi
    exact h.nonzero i hi
  · rw [hslots] at hrefs
    rw [hsize] at hi
    rw [hfree]
    exact (h.covered i hpos hi hrefs).imp_right fun ⟨t, ht⟩ => ⟨t, (hexcl t).trans ht⟩

end Stages

/-! ### The steps of the table -/

section Steps

variable {b : Book}

variable {k : Token} {r : ℕ} {a : Handle}

theorem Book.note_eq (hstored : ∀ a, b.s.pc k ≠ .stored a)
    (hcas : ∀ r a w, b.s.pc k ≠ .deref r a w (.cas 0))
    (hfree : ∀ r a w p f, b.s.pc k ≠ .deref r a w (.free p f)) : b.note k = b := by
  unfold Book.note
  split
  case h_1 hk => exact absurd hk (hstored _)
  case h_2 hk => exact absurd hk (hcas _ _ _)
  case h_3 hk => exact absurd hk (hfree _ _ _ _ _)
  case h_4 => rfl

theorem Ok.derefCheck (h : Ok b) {wait : Bool} {d : Deref}
    (hk : b.s.pc k = .deref r a wait d) (hd : d = .load ∨ ∃ n, d = .cas n) :
    Ok { b with s := derefCheck b.s k r a wait } := by
  have hold : (b.s.pc k).ending = none ∧ (b.s.pc k).excl = none ∧
      (b.s.pc k).handle = some a := by
    rw [hk]
    rcases hd with rfl | ⟨n, rfl⟩
    all_goals exact ⟨rfl, rfl, rfl⟩
  unfold HandleTable.derefCheck
  dsimp only
  split
  · refine h.plain hold.1 ?_ ?_ (fun q _ => ?_) ?_
    · cases wait <;> rfl
    · rw [Pc.back_excl, hold.2.1]
    · rw [Pc.back_handle, hold.2.2]
    · cases wait <;> rintro _ ⟨⟩
  · exact h.plain hold.1 rfl hold.2.1.symm (fun q _ => hold.2.2.symm) (by rintro _ ⟨⟩)

theorem Ok.pinCheck (h : Ok b) {c : ℕ}
    (hk : b.s.pc (.pin c) = .pinLoad r a ∨ ∃ n, b.s.pc (.pin c) = .pinCas r a n) :
    Ok { b with s := pinCheck b.s (.pin c) r a } := by
  have hold : (b.s.pc (.pin c)).ending = none ∧ (b.s.pc (.pin c)).excl = none := by
    rcases hk with hk | ⟨n, hk⟩
    all_goals
      rw [hk]
      exact ⟨rfl, rfl⟩
  unfold HandleTable.pinCheck
  dsimp only
  split
  all_goals exact h.plain hold.1 rfl hold.2.symm (by rintro _ ⟨⟩) (by rintro _ ⟨⟩)

/-- A drop of one reference leaves one fewer, as the count says. -/
theorem Inv.length_erase {s : State} (h : Inv s) {n : ℕ}
    (href : (s.pc k).ref = some (r, a)) (hrc : (s.slots a.idx).rc = n + 1) :
    ((s.slots a.idx).refs.erase k).length = n := by
  obtain ⟨-, -, hlen⟩ := h.rc_ne_zero (i := a.idx) (by omega)
  rw [List.length_erase_of_mem (h.holder k r a href).1, ← hlen, hrc]
  rfl

/-- **Step lemma** for `rl_handle_deref`. -/
theorem derefStep_ok (h : Ok b) (hinv : Inv b.s) {wait : Bool}
    {d : Deref} (hk : b.s.pc k = .deref r a wait d) :
    Ok { b.note k with s := derefStep b.s k r a wait d } := by
  have hback : (Pc.back r a wait).ending = none := by cases wait <;> rfl
  have hstored : ∀ c, Pc.back r a wait ≠ .stored c := by cases wait <;> rintro _ ⟨⟩
  unfold derefStep
  dsimp only
  cases d with
  | load =>
    rw [Book.note_eq (by rw [hk]; rintro _ ⟨⟩) (by rw [hk]; rintro _ _ _ ⟨⟩)
      (by rw [hk]; exact (by simp))]
    dsimp only
    split
    case isTrue => exact h.derefCheck hk (.inl rfl)
    case isFalse =>
      exact h.plain (by rw [hk]; rfl) hback (by rw [hk, Pc.back_excl]; rfl)
        (fun q _ => by rw [hk, Pc.back_handle]; rfl) hstored
  | cas n =>
    have href : (b.s.pc k).ref = some (r, a) := by rw [hk]; rfl
    have hold : (b.s.slots a.idx).refs ≠ [] := List.ne_nil_of_mem (hinv.holder k r a href).1
    dsimp only
    cases n with
    | zero =>
      simp only [Book.note, hk, Nat.zero_add]
      split
      case isTrue hcas =>
        have hlast := List.length_eq_zero_iff.mp (hinv.length_erase href hcas.2)
        rw [if_pos trivial, hlast]
        exact h.close hinv hk hold (hinv.holder k r a href).2.1 rfl
      case isFalse => exact h.derefCheck hk (.inr ⟨0, rfl⟩)
    | succ n =>
      rw [Book.note_eq (by rw [hk]; rintro _ ⟨⟩) (by rw [hk]; rintro _ _ _ ⟨⟩)
        (by rw [hk]; exact (by simp))]
      split
      case isTrue hcas =>
        have hmore : (b.s.slots a.idx).refs.erase k ≠ [] := fun he => by
          have hlen := hinv.length_erase href hcas.2
          rw [he] at hlen
          cases hlen
        rw [if_neg (Nat.succ_ne_zero n)]
        exact h.recount hinv hold hmore (by rw [hk]; rfl) hback (by rw [hk, Pc.back_excl]; rfl)
          (fun q _ => by rw [hk, Pc.back_handle]; rfl) hstored
      case isFalse => exact h.derefCheck hk (.inr ⟨n + 1, rfl⟩)
  | clear =>
    rw [Book.note_eq (by rw [hk]; rintro _ ⟨⟩) (by rw [hk]; rintro _ _ _ ⟨⟩)
      (by rw [hk]; exact (by simp))]
    have hx : (b.s.pc k).excl = some a.idx := by rw [hk]; rfl
    have hcaught := (h.dying k a.idx (by rw [hk]; rfl)).2.2
    rw [hk] at hcaught
    refine h.touch hinv hx (hinv.alone k a.idx hx).1 rfl rfl (by rw [hk]; rfl) ?_
      (fun q _ => by rw [hk]; rfl) (by rintro _ _ _ ⟨⟩)
    simpa [Caught, State.goto, State.setSlot] using hcaught
  | bump p f =>
    rw [Book.note_eq (by rw [hk]; rintro _ ⟨⟩) (by rw [hk]; rintro _ _ _ ⟨⟩)
      (by rw [hk]; exact (by simp))]
    have hx : (b.s.pc k).excl = some a.idx := by rw [hk]; rfl
    have hcaught := (h.dying k a.idx (by rw [hk]; rfl)).2.2
    rw [hk] at hcaught
    refine h.touch hinv hx (hinv.alone k a.idx hx).1 rfl rfl (by rw [hk]; rfl) ?_
      (fun q _ => by rw [hk]; rfl) (by rintro _ _ _ ⟨⟩)
    simpa [Caught, State.goto, State.setSlot] using hcaught
  | free p f =>
    simp only [Book.note, hk]
    exact h.finish hinv hk
  | push =>
    rw [Book.note_eq (by rw [hk]; rintro _ ⟨⟩) (by rw [hk]; rintro _ _ _ ⟨⟩)
      (by rw [hk]; exact (by simp))]
    exact h.push (by rw [hk]; rfl) (by rw [hk]; rfl) hback (Pc.back_excl r a wait)
      (fun q _ => by rw [hk, Pc.back_handle]; rfl) hstored

theorem tokenStep_ok (h : Ok b) (hinv : Inv b.s) {t : State}
    (hs : tokenStep b.s k = some t) : Ok { b.note k with s := t } := by
  unfold tokenStep at hs
  split at hs
  case h_1 i hpc =>
    cases hs
    rw [Book.note_eq (by rw [hpc]; rintro _ ⟨⟩) (by rw [hpc]; rintro _ _ _ ⟨⟩)
      (by rw [hpc]; exact nofun)]
    exact h.plain (by rw [hpc]; rfl) rfl (by rw [hpc]; rfl) (fun q _ => by rw [hpc]; rfl) (by rintro _ ⟨⟩)
  case h_2 a r hpc =>
    cases hs
    have hx : (b.s.pc (.owner r)).excl = some a.idx := by rw [hpc]; rfl
    rw [Book.note_eq (by rw [hpc]; rintro _ ⟨⟩) (by rw [hpc]; rintro _ _ _ ⟨⟩)
      (by rw [hpc]; exact nofun)]
    refine h.touch hinv hx (hinv.alone _ a.idx hx).1 rfl rfl (by rw [hpc]; rfl) trivial
      (fun q _ => by rw [hpc]; rfl) ?_
    intro q c hq hc
    cases hq
    cases hc
    exact ⟨rfl, rfl⟩
  case h_3 a r hpc =>
    cases hs
    simp only [Book.note, hpc]
    exact h.publish hinv hpc
  case h_4 r a c hpc =>
    rw [Book.note_eq (by rw [hpc]; rintro _ ⟨⟩) (by rw [hpc]; rintro _ _ _ ⟨⟩)
      (by rw [hpc]; exact nofun)]
    split at hs
    case isTrue =>
      cases hs
      exact h.pinCheck (.inl hpc)
    case isFalse =>
      cases hs
      exact h.plain (by rw [hpc]; rfl) rfl (by rw [hpc]; rfl) (by rintro _ ⟨⟩) (by rintro _ ⟨⟩)
  case h_5 r a n c hpc =>
    rw [Book.note_eq (by rw [hpc]; rintro _ ⟨⟩) (by rw [hpc]; rintro _ _ _ ⟨⟩)
      (by rw [hpc]; exact nofun)]
    dsimp only at hs
    split at hs
    case isTrue hcas =>
      cases hs
      obtain ⟨hold, -, -⟩ := hinv.rc_ne_zero (i := a.idx) (by omega)
      exact h.recount hinv hold (List.cons_ne_nil _ _) (by rw [hpc]; rfl) rfl (by rw [hpc]; rfl)
        nofun nofun
    case isFalse =>
      cases hs
      exact h.pinCheck (.inr ⟨n, hpc⟩)
  case h_6 r a c hpc =>
    cases hs
    rw [Book.note_eq (by rw [hpc]; exact nofun) (by rw [hpc]; exact nofun)
      (by rw [hpc]; exact nofun)]
    exact h.plain (by rw [hpc]; rfl) rfl (by rw [hpc]; rfl) nofun nofun
  case h_7 r a wait d hpc =>
    cases hs
    exact derefStep_ok h hinv hpc
  case h_8 r a hpc =>
    rw [Book.note_eq (by rw [hpc]; exact nofun) (by rw [hpc]; exact nofun)
      (by rw [hpc]; exact nofun)]
    split at hs
    case isTrue =>
      cases hs
      exact h.plain (by rw [hpc]; rfl) rfl (by rw [hpc]; rfl) (fun q _ => by rw [hpc]; rfl) nofun
    case isFalse => cases hs
  case h_9 => cases hs

theorem Ok.step (h : Ok b) (hinv : Inv b.s) {x : Action} {b' : Book}
    (hs : Book.step b x = some b') : Ok b' := by
  obtain ⟨t, ht, rfl⟩ := Option.map_eq_some_iff.mp hs
  have hpop : ∀ {c : Book} {r ptr : ℕ} {f : Bool}, Ok c → c.s.pc (.owner r) = .fresh →
      c.s.pop r ptr f = some t → Ok { c with s := t } := by
    intro c r ptr f hc hk hp
    unfold State.pop at hp
    split at hp
    case h_1 => cases hp
    case h_2 i rest hfree => exact hc.pop hk hfree (Option.some.inj hp).symm
  cases x with
  | register r ptr f =>
    dsimp only [HandleTable.step] at ht ⊢
    split at ht
    case h_1 hk =>
      split at ht
      case isTrue =>
        split at ht
        case isTrue => exact hpop (c := { b with s := b.s.grow }) h.grow hk ht
        case isFalse => cases ht
      case isFalse => exact hpop h hk ht
    case h_2 => cases ht
  | full r =>
    dsimp only [HandleTable.step] at ht ⊢
    split at ht
    case h_1 hk =>
      split at ht
      case isTrue =>
        cases ht
        exact h.plain (by rw [hk]; rfl) rfl (by rw [hk]; rfl) (fun q _ => by rw [hk]; rfl) (by rintro _ ⟨⟩)
      case isFalse => cases ht
    case h_2 => cases ht
  | release r wait =>
    dsimp only [HandleTable.step] at ht ⊢
    split at ht
    case h_1 hk =>
      cases ht
      exact h.plain (by rw [hk]; rfl) rfl (by rw [hk]; rfl) (fun q _ => by rw [hk]; rfl) (by rintro _ ⟨⟩)
    case h_2 => cases ht
  | pin c r =>
    dsimp only [HandleTable.step] at ht ⊢
    split at ht
    case h_1 hk _ =>
      cases ht
      exact h.plain (by rw [hk]; rfl) rfl (by rw [hk]; rfl) (by rintro _ ⟨⟩) (by rintro _ ⟨⟩)
    case h_2 => cases ht
  | unpin c =>
    dsimp only [HandleTable.step] at ht ⊢
    split at ht
    case h_1 hk =>
      cases ht
      exact h.plain (by rw [hk]; rfl) rfl (by rw [hk]; rfl) (by rintro _ ⟨⟩) (by rintro _ ⟨⟩)
    case h_2 => cases ht
  | step k => exact tokenStep_ok h hinv ht

end Steps

/-! ### Arguments and counts -/

/-- What a step keeps of the arguments of a registration that was begun, and of the
room in the counts. -/
structure Kept (s t : State) : Prop where
  fnOf : ∀ r, s.pc (.owner r) ≠ .fresh → t.fnOf r = s.fnOf r
  refs : ∀ i, (s.slots i).refs.length < span → (t.slots i).refs.length < span

variable {s t : State} {b : Book}

theorem Kept.same (hfn : t.fnOf = s.fnOf) (hslots : t.slots = s.slots) :
    Kept s t :=
  ⟨fun _ _ => by rw [hfn], fun _ hi => by rw [hslots]; exact hi⟩

theorem Kept.at {i : ℕ} {w : Slot} (hfn : t.fnOf = s.fnOf)
    (hslots : t.slots = fun j => if j = i then w else s.slots j)
    (hw : (s.slots i).refs.length < span → w.refs.length < span) : Kept s t := by
  refine ⟨fun _ _ => by rw [hfn], fun j hj => ?_⟩
  by_cases hji : j = i
  · subst hji
    simpa only [hslots, if_true] using hw hj
  · simpa only [hslots, if_neg hji] using hj

theorem derefStep_kept (s : State) (k : Token) (r : ℕ) (a : Handle) (wait : Bool) (d : Deref) :
    Kept s (derefStep s k r a wait d) := by
  have hcheck : Kept s (derefCheck s k r a wait) := by
    unfold derefCheck
    dsimp only
    split
    all_goals exact .same rfl rfl
  unfold derefStep
  dsimp only
  cases d with
  | load =>
    dsimp only
    split
    · exact hcheck
    · exact .same rfl rfl
  | cas n =>
    dsimp only
    split
    · split
      all_goals exact .at rfl rfl (Nat.lt_of_le_of_lt List.length_erase_le)
    · exact hcheck
  | clear => exact .at rfl rfl id
  | bump p f => exact .at rfl rfl id
  | free p f => exact .same rfl rfl
  | push => exact .same rfl rfl

theorem tokenStep_kept (hinv : Inv s) {k : Token}
    (ho : overflows s (.step k) = false) (hs : tokenStep s k = some t) : Kept s t := by
  have hcheck : ∀ r a, Kept s (pinCheck s k r a) := by
    intro r a
    unfold pinCheck
    dsimp only
    split
    all_goals exact .same rfl rfl
  unfold tokenStep at hs
  split at hs
  case h_1 =>
    cases hs
    exact .same rfl rfl
  case h_2 =>
    cases hs
    exact .at rfl rfl id
  case h_3 =>
    cases hs
    exact .at rfl rfl fun _ => one_lt_span
  case h_4 =>
    split at hs
    · cases hs
      exact hcheck _ _
    · cases hs
      exact .same rfl rfl
  case h_5 r a n c hpc =>
    dsimp only at hs
    split at hs
    case isTrue hcas =>
      cases hs
      obtain ⟨-, -, hlen⟩ := hinv.rc_ne_zero (i := a.idx) (by omega)
      have hroom : ¬span ≤ n + 2 := by
        simp only [overflows, hpc, hcas.1, hcas.2, true_and] at ho
        exact of_decide_eq_false ho
      refine .at rfl rfl fun _ => ?_
      rw [List.length_cons, ← hlen, hcas.2]
      exact Nat.not_le.mp hroom
    case isFalse =>
      cases hs
      exact hcheck _ _
  case h_6 =>
    cases hs
    exact .same rfl rfl
  case h_7 =>
    cases hs
    exact derefStep_kept ..
  case h_8 =>
    split at hs
    · cases hs
      exact .same rfl rfl
    · cases hs
  case h_9 => cases hs

theorem step_kept (hinv : Inv s) {x : Action} (ho : overflows s x = false)
    (hs : step s x = some t) : Kept s t := by
  have hpop : ∀ {u : State} {r ptr : ℕ} {f : Bool}, u.fnOf = s.fnOf → u.slots = s.slots →
      s.pc (.owner r) = .fresh → u.pop r ptr f = some t → Kept s t := by
    intro u r ptr f hfn hslots hk hp
    unfold State.pop at hp
    split at hp
    case h_1 => cases hp
    case h_2 =>
      cases hp
      refine ⟨fun q hq => ?_, fun i hi => ?_⟩
      · have hqr : q ≠ r := by
          rintro rfl
          exact hq hk
        rw [← hfn]
        exact if_neg hqr
      · rw [← hslots] at hi
        exact hi
  cases x with
  | register r ptr f =>
    dsimp only [step] at hs
    split at hs
    case h_1 hk =>
      split at hs
      case isTrue =>
        split at hs
        case isTrue => exact hpop (u := s.grow) rfl rfl hk hs
        case isFalse => cases hs
      case isFalse => exact hpop (u := s) rfl rfl hk hs
    case h_2 => cases hs
  | full r =>
    dsimp only [step] at hs
    split at hs
    case h_1 =>
      split at hs
      case isTrue =>
        cases hs
        exact .same rfl rfl
      case isFalse => cases hs
    case h_2 => cases hs
  | release r wait =>
    dsimp only [step] at hs
    split at hs
    case h_1 =>
      cases hs
      exact .same rfl rfl
    case h_2 => cases hs
  | pin c r =>
    dsimp only [step] at hs
    split at hs
    case h_1 =>
      cases hs
      exact .same rfl rfl
    case h_2 => cases hs
  | unpin c =>
    dsimp only [step] at hs
    split at hs
    case h_1 =>
      cases hs
      exact .same rfl rfl
    case h_2 => cases hs
  | step k => exact tokenStep_kept hinv ho hs

/-! ### The counts of the book -/

/-- The registrations, the reclaims and the free calls by their stage. -/
structure Tallied (b : Book) : Prop where
  frees : ∀ r, b.frees.count r = if b.stage r = .done ∧ b.s.fnOf r = true then 1 else 0
  regs : b.regs.Nodup ∧ ∀ r, r ∈ b.regs ↔ b.stage r ≠ .new
  dead : b.dead.Nodup ∧ ∀ r, r ∈ b.dead ↔ b.stage r = .done
  live : b.live = (b.regs.length : ℤ) - b.dead.length

section Tallied

variable {b : Book}

theorem Tallied.same (h : Tallied b) {s' : State}
    (hfn : ∀ r, b.stage r ≠ .new → s'.fnOf r = b.s.fnOf r) : Tallied { b with s := s' } := by
  refine ⟨fun r => ?_, h.regs, h.dead, h.live⟩
  rw [h.frees r]
  by_cases hr : b.stage r = .done
  · rw [hfn r (by rw [hr]; decide)]
  · simp only [hr, false_and]

theorem Tallied.publish (h : Tallied b) {r : ℕ} (hr : b.stage r = .new) :
    Tallied (b.publish r) := by
  have hnot : r ∉ b.regs := fun hm => (h.regs.2 r).mp hm hr
  refine ⟨fun q => ?_, ⟨?_, fun q => ?_⟩, ⟨h.dead.1, fun q => ?_⟩, ?_⟩
  all_goals dsimp only [Book.publish]
  · rw [h.frees q]
    by_cases hq : q = r
    · simp [hq, hr]
    · simp [hq]
  · exact List.nodup_append.mpr ⟨h.regs.1, List.nodup_singleton r, fun x hx y hy he => by
      rw [List.mem_singleton] at hy
      exact hnot (by rw [← hy, ← he]; exact hx)⟩
  · rw [List.mem_append, List.mem_singleton, h.regs.2 q]
    by_cases hq : q = r
    · simp [hq]
    · simp [hq]
  · rw [h.dead.2 q]
    by_cases hq : q = r
    · rw [hq, update_self, hr]
      exact ⟨by rintro ⟨⟩, by rintro ⟨⟩⟩
    · rw [update_of_ne hq]
  · rw [h.live, List.length_append, List.length_singleton]
    omega

theorem Tallied.close (h : Tallied b) {r : ℕ} (hr : b.stage r = .live) : Tallied (b.close r) := by
  have hstage : ∀ q, (update b.stage r .dying q = .done ↔ b.stage q = .done) ∧
      (update b.stage r .dying q = .new ↔ b.stage q = .new) := fun q => by
    by_cases hq : q = r
    · rw [hq, update_self, hr]
      simp
    · rw [update_of_ne hq]
      exact ⟨Iff.rfl, Iff.rfl⟩
  refine ⟨fun q => ?_, ⟨h.regs.1, fun q => ?_⟩, ⟨h.dead.1, fun q => ?_⟩, h.live⟩
  all_goals dsimp only [Book.close]
  · rw [h.frees q]
    simp only [(hstage q).1]
  · rw [h.regs.2 q, Ne, Ne, (hstage q).2]
  · rw [h.dead.2 q, (hstage q).1]

theorem Tallied.finish (h : Tallied b) {r : ℕ} {p : Option ℕ} {f : Bool}
    (hr : b.stage r = .dying) (hp : p ≠ none) (hf : f = b.s.fnOf r) :
    Tallied (b.finish r p f) := by
  have hnot : r ∉ b.dead := fun hm => by
    have := (h.dead.2 r).mp hm
    rw [hr] at this
    cases this
  refine ⟨fun q => ?_, ⟨h.regs.1, fun q => ?_⟩, ⟨?_, fun q => ?_⟩, ?_⟩
  all_goals dsimp only [Book.finish]
  · have hcount : (if f = true ∧ p ≠ none then b.frees ++ [r] else b.frees).count q =
        b.frees.count q + if q = r ∧ b.s.fnOf r = true then 1 else 0 := by
      simp only [hp, ne_eq, not_false_eq_true, and_true, hf]
      by_cases hfn : b.s.fnOf r = true
      · rw [if_pos hfn, List.count_append, List.count_singleton]
        by_cases hq : q = r
        · simp [hq, hfn]
        · simp [hq, Ne.symm hq]
      · simp [hfn]
    rw [hcount, h.frees q]
    by_cases hq : q = r
    · subst hq
      simp [hr]
    · simp [hq]
  · rw [h.regs.2 q]
    by_cases hq : q = r
    · rw [hq, update_self, hr]
      simp
    · rw [update_of_ne hq]
  · exact List.nodup_append.mpr ⟨h.dead.1, List.nodup_singleton r, fun x hx y hy he => by
      rw [List.mem_singleton] at hy
      exact hnot (by rw [← hy, ← he]; exact hx)⟩
  · rw [List.mem_append, List.mem_singleton, h.dead.2 q]
    by_cases hq : q = r
    · simp [hq]
    · simp [hq]
  · rw [h.live, List.length_append, List.length_singleton]
    omega

/-- **Step lemma.** -/
theorem Tallied.step (h : Tallied b) (hok : Ok b) (hinv : Inv b.s) {x : Action} {b' : Book}
    (hkept : ∀ t, HandleTable.step b.s x = some t → Kept b.s t)
    (hs : Book.step b x = some b') : Tallied b' := by
  obtain ⟨t, ht, rfl⟩ := Option.map_eq_some_iff.mp hs
  have hbegun : ∀ r, b.stage r ≠ .new → t.fnOf r = b.s.fnOf r := fun r hr =>
    (hkept t ht).fnOf r fun hf => hr ((hok.new r).mpr (by rw [hf]; rfl))
  have hsame := h.same hbegun
  cases x with
  | step k =>
    dsimp only
    unfold Book.note
    split
    case h_1 r a hk => exact hsame.publish ((hok.new r).mpr (by rw [hk]; rfl))
    case h_2 r a wait hk =>
      dsimp only
      split
      case isTrue hcas =>
        obtain ⟨hrefs, -, -⟩ := hinv.rc_ne_zero (i := a.idx) (by omega)
        exact hsame.close (hok.live a.idx hrefs).1
      case isFalse => exact hsame
    case h_3 r a wait p f hk =>
      obtain ⟨hdying, -, hcaught⟩ := hok.dying _ a.idx (congrArg Pc.ending hk)
      rw [hk] at hcaught
      refine hsame.finish hdying hcaught.2.1 (hcaught.2.2.trans ?_)
      exact (hbegun _ (by rw [hdying]; decide)).symm
    case h_4 => exact hsame
  | register r ptr f => exact hsame
  | full r => exact hsame
  | release r wait => exact hsame
  | pin c r => exact hsame
  | unpin c => exact hsame

end Tallied

/-! ### Runs -/

theorem Book.step_s {b' : Book} {x : Action} (hs : Book.step b x = some b') :
    HandleTable.step b.s x = some b'.s := by
  obtain ⟨t, ht, rfl⟩ := Option.map_eq_some_iff.mp hs
  cases x
  all_goals exact ht

/-- The table of a bounded run is one of a run in which no generation wraps. -/
theorem reachable_s {segBits maxSegs : ℕ}
    (hr : Reachable (bounded segBits maxSegs) b) : Reachable (unwrapped segBits maxSegs) b.s := by
  induction hr with
  | start hs =>
    rw [hs]
    exact .start rfl
  | next _ hs ih =>
    obtain ⟨hw, hst⟩ := System.restrict_step.mp hs
    exact ih.next (System.restrict_step.mpr ⟨hw.1, Book.step_s hst⟩)

structure Sound (b : Book) : Prop where
  ok : Ok b
  tallied : Tallied b
  room : ∀ i, (b.s.slots i).refs.length < span

theorem sound_init (segBits maxSegs : ℕ) : Sound (.init segBits maxSegs) := by
  have hsize : ∀ i, ¬i < (HandleTable.init segBits maxSegs).size := fun i hi => by
    rw [State.size, HandleTable.init, Nat.zero_mul] at hi
    exact Nat.not_lt_zero i hi
  refine ⟨⟨fun i hi => absurd rfl hi, by rintro _ _ ⟨⟩, by rintro _ _ ⟨⟩, by rintro _ ⟨⟩, by rintro _ ⟨⟩, fun r => ⟨fun _ => rfl, fun _ => rfl⟩,
    ⟨by rintro _ ⟨⟩, by rintro _ ⟨⟩⟩, fun i hi => absurd rfl hi, fun i _ hi _ => absurd hi (hsize i)⟩, ?_,
    fun i => Nat.lt_trans Nat.zero_lt_one one_lt_span⟩
  refine ⟨fun r => ?_, ⟨List.nodup_nil, fun r => ?_⟩, ⟨List.nodup_nil, fun r => ?_⟩, rfl⟩
  all_goals simp [Book.init]

theorem reachable_book {segBits maxSegs : ℕ}
    (hr : Reachable (bounded segBits maxSegs) b) : Sound b := by
  refine hr.invariant ?_ ?_
  · intro b hb
    rw [hb]
    exact sound_init segBits maxSegs
  · intro b x b' hb h hs
    obtain ⟨hw, hst⟩ := System.restrict_step.mp hs
    have hinv := reachable_inv (reachable_s hb)
    have hkept : ∀ t, step b.s x = some t → Kept b.s t := fun t ht => step_kept hinv hw.2 ht
    exact ⟨h.ok.step hinv hst, h.tallied.step h.ok hinv hkept hst,
      fun i => (hkept _ (Book.step_s hst)).refs i (h.room i)⟩

/-- The owner or a pin of `r` has a reference that it has not dropped. -/
def Held (s : State) (r : ℕ) : Prop := ∃ t h, (s.pc t).ref = some (r, h)

/-- No call is running. -/
def Pc.returned : Pc → Bool
  | .fresh | .failed | .null _ _ | .holds _ _ _ | .gone _ _ => true
  | _ => false

section Reachable

variable {segBits maxSegs : ℕ} {b : Book}

/-- A slot has references just when some call holds one. -/
theorem Sound.refs_iff (h : Sound b) (hinv : Inv b.s) (i : ℕ) :
    (b.s.slots i).refs ≠ [] ↔ ∃ t r a, (b.s.pc t).ref = some (r, a) ∧ a.idx = i := by
  constructor
  · intro hne
    obtain ⟨t, ht⟩ := List.exists_mem_of_ne_nil _ hne
    obtain ⟨r, a, href, hi⟩ := (hinv.spent i t ht).resolve_right (Nat.ne_of_lt (h.room i))
    exact ⟨t, r, a, href, hi⟩
  · rintro ⟨t, r, a, href, rfl⟩
    exact List.ne_nil_of_mem (hinv.holder t r a href).1

theorem Sound.live_iff (h : Sound b) (hinv : Inv b.s) (r : ℕ) :
    b.stage r = .live ↔ Held b.s r := by
  constructor
  · intro hr
    obtain ⟨a, -, hreg, hrefs⟩ := h.ok.onLive r hr
    obtain ⟨t, q, c, href, hc⟩ := (h.refs_iff hinv a.idx).mp hrefs
    obtain ⟨-, hq, -⟩ := hinv.holder t q c href
    rw [hc, hreg] at hq
    exact ⟨t, c, hq ▸ href⟩
  · rintro ⟨t, a, href⟩
    obtain ⟨hmem, hreg, -⟩ := hinv.holder t r a href
    rw [← hreg]
    exact (h.ok.live a.idx (List.ne_nil_of_mem hmem)).1

/-- A dying registration is in the hands of a deref of it. -/
theorem Sound.dying_deref (h : Sound b) {r : ℕ} (hr : b.stage r = .dying) :
    ∃ t a w d, b.s.pc t = .deref r a w d ∧ (b.s.pc t).returned = false := by
  obtain ⟨t, i, ht, hi⟩ := h.ok.onDying r hr
  obtain ⟨-, -, hcaught⟩ := h.ok.dying t i ht
  generalize hp : b.s.pc t = p at ht hcaught
  unfold Pc.ending at ht
  split at ht
  case h_4 => cases ht
  all_goals
    cases ht
    obtain ⟨hreg, -, -⟩ := hcaught
    rw [hi] at hreg
    subst hreg
    exact ⟨t, _, _, _, hp, by rw [hp]; rfl⟩

/-- The registrations published and not reclaimed, as `rl_handle_live` counts them. -/
theorem Tallied.remaining (h : Tallied b) :
    ∃ l : List ℕ, l.Nodup ∧ b.live = l.length ∧
      ∀ r, r ∈ l ↔ b.stage r = .live ∨ b.stage r = .dying := by
  have hsub : b.dead ⊆ b.regs := fun r hr => (h.regs.2 r).mpr fun hn => by
    rw [(h.dead.2 r).mp hr] at hn
    cases hn
  have hperm := List.subperm_append_diff_self_of_count_le
    (List.subperm_ext_iff.mp (h.dead.1.subperm hsub))
  refine ⟨b.regs.diff b.dead, h.regs.1.diff, ?_, fun r => ?_⟩
  · have hlen := hperm.length_eq
    rw [List.length_append] at hlen
    rw [h.live]
    omega
  · rw [h.regs.1.mem_sdiff_iff, h.regs.2, h.dead.2]
    cases b.stage r
    all_goals simp

/-- **Handle table reclamation.** In every run in which no generation wraps and no
registration has 2^32 references, a free function is called at most once, and only
after the release and with every reference dropped; it has been called exactly once
when the release and the unpins have returned. The free list has no slot twice, and
has those slots, other than slot 0, to which no call holds a reference and which no
call is registering or reclaiming. Between calls `rl_handle_live` is the number of
registrations that are not released or still pinned. -/
theorem reclaim_exact (hr : Reachable (bounded segBits maxSegs) b) :
    (∀ r, b.frees.count r ≤ 1 ∧
      (r ∈ b.frees → (b.s.pc (.owner r)).handle ≠ none ∧ ¬Held b.s r)) ∧
    (∀ r, Over b.s r → (∀ c a w d, b.s.pc (.pin c) ≠ .deref r a w d) →
      b.frees.count r = if b.s.fnOf r = true then 1 else 0) ∧
    (b.s.free.Nodup ∧ ∀ i, i ∈ b.s.free ↔ 0 < i ∧ i < b.s.size ∧
      (∀ t r a, (b.s.pc t).ref = some (r, a) → a.idx ≠ i) ∧ ∀ t, (b.s.pc t).excl ≠ some i) ∧
    ((∀ t, (b.s.pc t).returned = true) →
      ∃ l : List ℕ, l.Nodup ∧ b.live = l.length ∧ ∀ r, r ∈ l ↔ Held b.s r) := by
  have hun := reachable_s hr
  have hinv := reachable_inv hun
  have h := reachable_book hr
  refine ⟨fun r => ⟨?_, fun hmem => ?_⟩, fun r hover hpins => ?_, ⟨hinv.free.1, fun i => ?_⟩,
    fun hquiet => ?_⟩
  · rw [h.tallied.frees r]
    split <;> omega
  · have hdone : b.stage r = .done := by
      by_contra hne
      have hcount := h.tallied.frees r
      rw [if_neg fun hc => hne hc.1] at hcount
      exact List.count_eq_zero.mp hcount hmem
    refine ⟨fun hn => ?_, fun hheld => ?_⟩
    · rw [(h.ok.new r).mpr hn] at hdone
      cases hdone
    · rw [(h.live_iff hinv r).mpr hheld] at hdone
      cases hdone
  · obtain ⟨⟨a₀, howner⟩, hnone⟩ := hover
    have hdone : b.stage r = .done := by
      cases hstage : b.stage r with
      | new =>
        have hhandle := (h.ok.new r).mp hstage
        rw [howner] at hhandle
        cases hhandle
      | live =>
        obtain ⟨t, a, href⟩ := (h.live_iff hinv r).mp hstage
        cases t with
        | owner q =>
          obtain rfl := reachable_own hun (Pc.aim_of_ref href)
          rw [howner] at href
          cases href
        | pin c => exact absurd href (hnone c a)
      | dying =>
        obtain ⟨t, a, w, d, hpc, -⟩ := h.dying_deref hstage
        cases t with
        | owner q =>
          obtain rfl := reachable_own (q := q) (r := r) (h := a) hun (by rw [hpc]; rfl)
          rw [howner] at hpc
          cases hpc
        | pin c => exact absurd hpc (hpins c a w d)
      | done => rfl
    rw [h.tallied.frees r]
    simp only [hdone, true_and]
  · constructor
    · intro hi
      obtain ⟨hrefs, hsize⟩ := hinv.free.2 i hi
      refine ⟨Nat.pos_of_ne_zero (h.ok.zero.1 i hi), hsize, fun t r a href hai => ?_,
        hinv.not_excl hi⟩
      exact (h.refs_iff hinv i).mpr ⟨t, r, a, href, hai⟩ hrefs
    · rintro ⟨hpos, hsize, hrefs, hexcl⟩
      have hempty : (b.s.slots i).refs = [] := by
        by_contra hne
        obtain ⟨t, r, a, href, hai⟩ := (h.refs_iff hinv i).mp hne
        exact hrefs t r a href hai
      rcases h.ok.covered i hpos hsize hempty with hfree | ⟨t, ht⟩
      · exact hfree
      · exact absurd ht (hexcl t)
  · obtain ⟨l, hnodup, hlive, hmem⟩ := h.tallied.remaining
    refine ⟨l, hnodup, hlive, fun r => (hmem r).trans ?_⟩
    rw [← h.live_iff hinv r]
    refine or_iff_left fun hdying => ?_
    obtain ⟨t, a, w, d, -, hret⟩ := h.dying_deref hdying
    rw [hquiet t] at hret
    cases hret

/-- Registration 0 is released while a pin holds it and is freed by the unpin;
registration 1 is in its slot again. -/
theorem reclaim_exact_reused :
    ∃ b, Reachable (bounded 1 1) b ∧ b.frees = [0] ∧ b.frees.count 0 = 1 ∧ ¬Held b.s 0 ∧
      b.live = 1 ∧ ∃ l : List ℕ, l.Nodup ∧ b.live = l.length ∧ ∀ r, r ∈ l ↔ Held b.s r := by
  have hr := reachable_of_run (bounded 1 1)
    (.flatten [[.register 0 10 true], .replicate 3 (.step (.owner 0)), [.pin 0 0],
      .replicate 3 (.step (.pin 0)), [.release 0 false], .replicate 2 (.step (.owner 0)), [.unpin 0],
      .replicate 6 (.step (.pin 0)), [.register 1 20 false], .replicate 3 (.step (.owner 1))])
    rfl rfl
  obtain ⟨honce, hexact, -, hlive⟩ := reclaim_exact hr
  refine ⟨_, hr, rfl, ?_, ((honce 0).2 (List.mem_singleton.mpr rfl)).2, rfl, hlive fun t => ?_⟩
  · refine hexact 0 ⟨⟨⟨1, 0⟩, rfl⟩, fun c a => ?_⟩ fun c a w d => ?_
    all_goals
      rcases c with _ | c
      all_goals rintro ⟨⟩
  · rcases t with (_ | _ | r) | (_ | c)
    all_goals rfl

end Reachable

/-! ### Past the 32 bits -/

/-- Slot 1 holds registration 0 with its owner's reference and those of `n` pins. -/
structure Pinned (n : ℕ) (b : Book) : Prop where
  bits : b.s.segBits = 1
  segs : b.s.segs = 1
  gen : (b.s.slots 1).gen = 0
  rc : (b.s.slots 1).rc = (n + 1) % span
  ptr : (b.s.slots 1).ptr = some 10
  owner : b.s.pc (.owner 0) = .holds 0 ⟨1, 0⟩ none
  held : ∀ c < n, b.s.pc (.pin c) = .holds 0 ⟨1, 0⟩ (some 10)
  fresh : ∀ c, n ≤ c → b.s.pc (.pin c) = .fresh
  fn : b.s.fnOf 0 = true
  frees : b.frees = []

theorem Pinned.pin {n : ℕ} (h : Pinned n b) (hn : n + 1 < span) :
    ∃ b', (books 1 1).run b (.pin n 0 :: .replicate 3 (.step (.pin n))) = some b' ∧
      Pinned (n + 1) b' := by
  have hrc : (b.s.slots 1).rc = n + 1 := h.rc.trans (Nat.mod_eq_of_lt hn)
  generalize hrun : (books 1 1).run b _ = o
  simp [System.run, books, Book.step, Book.note, step, tokenStep, pinCheck, State.goto,
    State.setSlot, State.size, Pc.handle, h.bits, h.segs, h.gen, hrc, h.ptr, h.owner,
    h.fresh n (Nat.le_refl n)] at hrun
  subst hrun
  refine ⟨_, rfl, ?_⟩
  constructor
  case bits => rfl
  case segs => rfl
  case gen => rfl
  case rc => rfl
  case ptr => rfl
  case owner => exact h.owner
  case held =>
    intro c hc
    by_cases hcn : c = n
    · simp [hcn]
    · simpa [hcn] using h.held c (by omega)
  case fresh =>
    intro c hc
    have hcn : c ≠ n := by omega
    simpa [hcn] using h.fresh c (by omega)
  case fn => exact h.fn
  case frees => exact h.frees

/-- The count has come round to 0, and the owner and the first `n` pins have given up
their references. -/
structure Stuck (n : ℕ) (b : Book) : Prop where
  bits : b.s.segBits = 1
  segs : b.s.segs = 1
  rc : (b.s.slots 1).rc = 0
  owner : b.s.pc (.owner 0) = .gone 0 ⟨1, 0⟩
  left : ∀ c < n, b.s.pc (.pin c) = .gone 0 ⟨1, 0⟩
  held : ∀ c, n ≤ c → c < span - 1 → b.s.pc (.pin c) = .holds 0 ⟨1, 0⟩ (some 10)
  fresh : ∀ c, span - 1 ≤ c → b.s.pc (.pin c) = .fresh
  fn : b.s.fnOf 0 = true
  frees : b.frees = []

theorem Pinned.release (h : Pinned (span - 1) b) :
    ∃ b', (books 1 1).run b [.release 0 false, .step (.owner 0)] = some b' ∧ Stuck 0 b' := by
  have hrc : (b.s.slots 1).rc = 0 := h.rc
  generalize hrun : (books 1 1).run b _ = o
  simp [System.run, books, Book.step, Book.note, step, tokenStep, derefStep, derefCheck, State.goto,
    State.size, Pc.back, h.bits, h.segs, hrc, h.owner] at hrun
  subst hrun
  refine ⟨_, rfl, ?_⟩
  constructor
  case bits => rfl
  case segs => rfl
  case rc => exact hrc
  case owner => rfl
  case left => rintro _ ⟨⟩
  case held => exact fun c _ hc => h.held c hc
  case fresh => exact h.fresh
  case fn => exact h.fn
  case frees => exact h.frees

theorem Stuck.unpin {n : ℕ} (h : Stuck n b) (hn : n < span - 1) :
    ∃ b', (books 1 1).run b [.unpin n, .step (.pin n)] = some b' ∧ Stuck (n + 1) b' := by
  generalize hrun : (books 1 1).run b _ = o
  simp [System.run, books, Book.step, Book.note, step, tokenStep, derefStep, derefCheck, State.goto,
    State.size, Pc.back, h.bits, h.segs, h.rc, h.held n (Nat.le_refl n) hn] at hrun
  subst hrun
  refine ⟨_, rfl, ?_⟩
  constructor
  case bits => rfl
  case segs => rfl
  case rc => exact h.rc
  case owner => exact h.owner
  case left =>
    intro c hc
    by_cases hcn : c = n
    · simp [hcn]
    · simpa [hcn] using h.left c (by omega)
  case held =>
    intro c hc hlt
    have hcn : c ≠ n := by omega
    simpa [hcn] using h.held c (by omega) hlt
  case fresh =>
    intro c hc
    have hcn : c ≠ n := by omega
    simpa [hcn] using h.fresh c hc
  case fn => exact h.fn
  case frees => exact h.frees

theorem pinned_reachable (n : ℕ) (hn : n < span) :
    ∃ b, Reachable (books 1 1) b ∧ Pinned n b := by
  induction n with
  | zero =>
    have hr := reachable_of_run (books 1 1)
      (.register 0 10 true :: .replicate 3 (.step (.owner 0))) rfl rfl
    exact ⟨_, hr, rfl, rfl, rfl, rfl, rfl, rfl, by rintro _ ⟨⟩, fun _ _ => rfl, rfl, rfl⟩
  | succ n ih =>
    obtain ⟨b, hr, h⟩ := ih (by omega)
    obtain ⟨b', hrun, h'⟩ := h.pin hn
    exact ⟨b', hr.run hrun, h'⟩

theorem stuck_reachable (n : ℕ) (hn : n ≤ span - 1) :
    ∃ b, Reachable (books 1 1) b ∧ Stuck n b := by
  induction n with
  | zero =>
    obtain ⟨b, hr, h⟩ := pinned_reachable (span - 1) (by decide)
    obtain ⟨b', hrun, h'⟩ := h.release
    exact ⟨b', hr.run hrun, h'⟩
  | succ n ih =>
    obtain ⟨b, hr, h⟩ := ih (by omega)
    obtain ⟨b', hrun, h'⟩ := h.unpin hn
    exact ⟨b', hr.run hrun, h'⟩

/-- A run of the table is the table of a run with the book. -/
theorem books_run {segBits maxSegs : ℕ} {as : List Action}
    (hrun : (system segBits maxSegs).run b.s as = some t) :
    ∃ b', (books segBits maxSegs).run b as = some b' ∧ b'.s = t ∧ b.frees ⊆ b'.frees := by
  induction as generalizing b with
  | nil =>
    cases hrun
    exact ⟨b, rfl, rfl, List.Subset.refl _⟩
  | cons a as ih =>
    obtain ⟨u, hu, hrest⟩ := Option.bind_eq_some_iff.mp hrun
    obtain ⟨c, hc, rfl, hsub⟩ : ∃ c, Book.step b a = some c ∧ c.s = u ∧ b.frees ⊆ c.frees := by
      refine ⟨_, Option.map_eq_some_iff.mpr ⟨u, hu, rfl⟩, ?_⟩
      cases a with
      | step t =>
        refine ⟨rfl, ?_⟩
        dsimp only
        unfold Book.note
        split
        case h_3 =>
          dsimp only [Book.finish]
          split
          · exact List.subset_append_left _ _
          · exact List.Subset.refl _
        case h_2 =>
          dsimp only
          split
          all_goals exact List.Subset.refl _
        all_goals exact List.Subset.refl _
      | _ => exact ⟨rfl, List.Subset.refl _⟩
    obtain ⟨b', hb', hs, hsub'⟩ := ih hrest
    exact ⟨b', Option.bind_eq_some_iff.mpr ⟨c, hc, hb'⟩, hs, List.Subset.trans hsub hsub'⟩

/-- Registration 0 is over and its free function was called. -/
theorem idle_freed : ∃ b, Reachable (books 1 1) b ∧ Idle 1 b.s ∧ 0 ∈ b.frees := by
  have hr := reachable_of_run (books 1 1)
    (.flatten [[.register 0 10 true], .replicate 3 (.step (.owner 0)), [.release 0 false],
      .replicate 6 (.step (.owner 0))]) rfl rfl
  refine ⟨_, hr, ⟨rfl, rfl, rfl, rfl, rfl, ?_, fun _ => rfl, rfl, rfl, rfl⟩, List.mem_singleton.mpr rfl⟩
  intro q hq
  rcases q with _ | q
  · omega
  · rfl

/-- A slot between its last reference and the free list; a released registration
that is still counted, by a pin; one that is never freed, after 2^32 references; and
a handle that is pinned again after the free call, once the generations of its slot
have come round. -/
theorem reclaim_gaps :
    (∃ b, Reachable (books 1 1) b ∧ b.s.size = 2 ∧ b.s.free = [] ∧
      (∀ t, (b.s.pc t).ref = none) ∧ (b.s.slots 1).refs = [] ∧ b.stage 0 = .dying) ∧
    (∃ b, Reachable (books 1 1) b ∧ (∀ t, (b.s.pc t).returned = true) ∧
      b.regs = [0] ∧ b.s.pc (.owner 0) = .gone 0 ⟨1, 0⟩ ∧ b.live = 1) ∧
    (∃ b, Reachable (books 1 1) b ∧ Over b.s 0 ∧ (∀ t, (b.s.pc (.pin t)).returned = true) ∧
      b.s.fnOf 0 = true ∧ b.frees = []) ∧
    ∃ b, Reachable (books 1 1) b ∧ 0 ∈ b.frees ∧
      b.s.pc (.pin 0) = .holds 0 ⟨1, 0⟩ (some 20) := by
  refine ⟨?_, ?_, ?_, ?_⟩
  · have hr := reachable_of_run (books 1 1)
      (.flatten [[.register 0 10 true], .replicate 3 (.step (.owner 0)), [.release 0 false],
        .replicate 2 (.step (.owner 0))]) rfl rfl
    refine ⟨_, hr, rfl, rfl, fun t => ?_, rfl, rfl⟩
    rcases t with (_ | r) | c
    all_goals rfl
  · have hr := reachable_of_run (books 1 1)
      (.flatten [[.register 0 10 true], .replicate 3 (.step (.owner 0)), [.pin 0 0],
        .replicate 3 (.step (.pin 0)), [.release 0 false], .replicate 2 (.step (.owner 0))]) rfl rfl
    refine ⟨_, hr, fun t => ?_, rfl, rfl, rfl⟩
    rcases t with (_ | r) | (_ | c)
    all_goals rfl
  · obtain ⟨b, hr, h⟩ := stuck_reachable (span - 1) (Nat.le_refl _)
    have hpins : ∀ c, b.s.pc (.pin c) = .gone 0 ⟨1, 0⟩ ∨ b.s.pc (.pin c) = .fresh := fun c =>
      (Nat.lt_or_ge c (span - 1)).imp (h.left c) (h.fresh c)
    refine ⟨b, hr, ⟨⟨_, h.owner⟩, fun c a => ?_⟩, fun c => ?_, h.fn, h.frees⟩
    all_goals
      rcases hpins c with hc | hc
      all_goals
        rw [hc]
        first | rfl | rintro ⟨⟩
  · obtain ⟨b, hr, hidle, hfreed⟩ := idle_freed
    obtain ⟨as, s₁, hrun₁, hs₁⟩ := hidle.run (span - 1)
    rw [Nat.sub_add_cancel (Nat.le_of_lt one_lt_span)] at hs₁
    obtain ⟨s₂, hrun₂, hs₂⟩ := hs₁.register (by decide)
    obtain ⟨s₃, hrun₃, hpin, -, -⟩ := hs₂.resolves
    obtain ⟨b₁, hb₁, rfl, hsub₁⟩ := books_run hrun₁
    obtain ⟨b₂, hb₂, rfl, hsub₂⟩ := books_run hrun₂
    obtain ⟨b₃, hb₃, rfl, hsub₃⟩ := books_run hrun₃
    exact ⟨b₃, ((hr.run hb₁).run hb₂).run hb₃, hsub₃ (hsub₂ (hsub₁ hfreed)), hpin⟩

end Stackweave.HandleTable
