import Mathlib.Data.List.Nodup
import Mathlib.Logic.Function.Basic

/-!
Singly linked lists in a memory of `next` pointers. `Leads next p l` says that the pointer `p`
leads over exactly the nodes of `l`, in this order, to the null pointer. A node is appended by
a store to the last one, and taken out of the middle by a store to its predecessor. `walk` is
the search loop, with a bound on its turns and the predecessor of what it finds. In a `Doubly`
linked list every node also has a pointer back, to its predecessor or to whatever `mk` makes of
it; a node is pushed at the front and taken out from anywhere. A `Family` is many such lists
over the same nodes, no node in two of them.
-/

namespace Stackweave.LinkedList

open Function

variable {α : Type*}

/-- From `p` the pointers lead over the nodes of `l` and end. -/
def Leads (next : α → Option α) : Option α → List α → Prop
  | p, [] => p = none
  | p, x :: l => p = some x ∧ Leads next (next x) l

/-- The first node that `stop` accepts and the one before it; `none` when the loop has not ended
after so many turns. -/
def walk (next : α → Option α) (stop : α → Bool) :
    ℕ → Option α → Option α → Option (Option α × Option α)
  | _, prev, none => some (prev, none)
  | 0, _, some _ => none
  | n + 1, prev, some x =>
    if stop x then some (prev, some x) else walk next stop n (some x) (next x)

variable {next : α → Option α} {p : Option α} {l r : List α} {x y : α}

theorem Leads.head (h : Leads next p l) : p = l.head? := by
  cases l with
  | nil => exact h
  | cons x l => exact h.1

/-- The pointers from a node inside the list. -/
theorem Leads.suffix (h : Leads next p (l ++ r)) : ∃ q, Leads next q r := by
  induction l generalizing p with
  | nil => exact ⟨p, h⟩
  | cons x l ih => exact ih h.2

theorem Leads.next_of_append (h : Leads next p (l ++ x :: r)) : Leads next (next x) r := by
  obtain ⟨q, hq⟩ := h.suffix
  exact hq.2

section Walk

variable {stop : α → Bool} {prev : Option α} {n : ℕ}

theorem last_cons (y : α) (l : List α) (prev : Option α) :
    l.getLast?.or (some y) = (y :: l).getLast?.or prev := by
  rw [List.getLast?_cons]
  cases l.getLast? <;> rfl

theorem walk_found (h : Leads next p (l ++ x :: r)) (hl : ∀ y ∈ l, stop y = false)
    (hx : stop x = true) (hn : l.length < n) :
    walk next stop n prev p = some (l.getLast?.or prev, some x) := by
  induction l generalizing p prev n with
  | nil =>
    obtain ⟨n, rfl⟩ := Nat.exists_eq_succ_of_ne_zero (Nat.ne_of_gt hn)
    rw [List.nil_append] at h
    rw [h.1, walk, if_pos hx]
    rfl
  | cons y l ih =>
    obtain ⟨n, rfl⟩ := Nat.exists_eq_succ_of_ne_zero (Nat.ne_of_gt (Nat.zero_lt_of_lt hn))
    have hy : stop y = false := hl y List.mem_cons_self
    rw [h.1, walk, hy, if_neg Bool.false_ne_true]
    rw [ih h.2 (fun z hz => hl z (List.mem_cons_of_mem _ hz)) (Nat.lt_of_succ_lt_succ hn), last_cons]

theorem walk_ends (h : Leads next p l) (hl : ∀ y ∈ l, stop y = false) (hn : l.length ≤ n) :
    walk next stop n prev p = some (l.getLast?.or prev, none) := by
  induction l generalizing p prev n with
  | nil =>
    have hp : p = none := h
    rw [hp]
    cases n <;> rfl
  | cons y l ih =>
    obtain ⟨n, rfl⟩ := Nat.exists_eq_succ_of_ne_zero (Nat.ne_of_gt (Nat.zero_lt_of_lt hn))
    have hy : stop y = false := hl y List.mem_cons_self
    rw [h.1, walk, hy, if_neg Bool.false_ne_true]
    rw [ih h.2 (fun z hz => hl z (List.mem_cons_of_mem _ hz)) (Nat.le_of_succ_le_succ hn), last_cons]

/-- More turns do not change what was found. -/
theorem walk_mono {res : Option α × Option α} {m : ℕ} (h : walk next stop n prev p = some res)
    (hm : n ≤ m) : walk next stop m prev p = some res := by
  induction n generalizing m prev p with
  | zero =>
    cases p with
    | none => cases m <;> exact h
    | some x => cases h
  | succ n ih =>
    obtain ⟨m, rfl⟩ := Nat.exists_eq_succ_of_ne_zero (Nat.ne_of_gt (Nat.zero_lt_of_lt hm))
    cases p with
    | none => exact h
    | some x =>
      rw [walk] at h ⊢
      split at h
      · next hx => rw [if_pos hx, h]
      · next hx =>
        rw [if_neg hx]
        exact ih h (Nat.le_of_succ_le_succ hm)

end Walk

section Store

variable [DecidableEq α] {q : Option α}

/-- A store to a node that is not in the list. -/
theorem Leads.store (h : Leads next p l) (hx : x ∉ l) : Leads (update next x q) p l := by
  induction l generalizing p with
  | nil => exact h
  | cons y l ih =>
    rw [List.mem_cons, not_or] at hx
    refine ⟨h.1, ?_⟩
    rw [update_of_ne (Ne.symm hx.1)]
    exact ih h.2 hx.2

/-- The last node is made to point to a new one, which points nowhere. -/
theorem Leads.append (h : Leads next p (l ++ [y])) (hy : y ∉ l) (hx : x ∉ l ++ [y])
    (hend : next x = none) : Leads (update next y (some x)) p (l ++ [y] ++ [x]) := by
  induction l generalizing p with
  | nil =>
    have hne : x ≠ y := fun he => hx (he ▸ List.mem_singleton_self y)
    refine ⟨h.1, update_self .., ?_⟩
    rw [update_of_ne hne]
    exact hend
  | cons z l ih =>
    rw [List.mem_cons, not_or] at hy
    rw [List.cons_append, List.mem_cons, not_or] at hx
    refine ⟨h.1, ?_⟩
    rw [update_of_ne (Ne.symm hy.1)]
    exact ih h.2 hy.2 hx.2

/-- The node before `x` is made to point past it. -/
theorem Leads.unlink (h : Leads next p (l ++ y :: x :: r)) (hnd : (l ++ y :: x :: r).Nodup) :
    Leads (update next y (next x)) p (l ++ y :: r) := by
  induction l generalizing p with
  | nil =>
    obtain ⟨hhead, -, hrest⟩ := h
    have hy : y ∉ r := fun hr => (List.nodup_cons.mp hnd).1 (List.mem_cons_of_mem _ hr)
    refine ⟨hhead, ?_⟩
    rw [update_self]
    exact hrest.store hy
  | cons z l ih =>
    rw [List.cons_append, List.nodup_cons] at hnd
    have hz : z ≠ y := fun he => hnd.1 (he ▸ List.mem_append_right _ List.mem_cons_self)
    refine ⟨h.1, ?_⟩
    rw [update_of_ne hz]
    exact ih h.2 hnd.2

end Store

section Doubly

variable {β : Type*} {back : α → β} {mk : Option α → β} {prev : Option α}

/-- `prev` is the node before the first one. -/
def Backed (back : α → β) (mk : Option α → β) : Option α → List α → Prop
  | _, [] => True
  | prev, x :: l => back x = mk prev ∧ Backed back mk (some x) l

structure Doubly (next : α → Option α) (back : α → β) (mk : Option α → β) (p : Option α)
    (l : List α) : Prop where
  leads : Leads next p l
  backed : Backed back mk none l
  nodup : l.Nodup

theorem Leads.congr {next' : α → Option α} (h : Leads next p l)
    (heq : ∀ y ∈ l, next' y = next y) : Leads next' p l := by
  induction l generalizing p with
  | nil => exact h
  | cons x l ih =>
    refine ⟨h.1, ?_⟩
    rw [heq x List.mem_cons_self]
    exact ih h.2 fun y hy => heq y (List.mem_cons_of_mem x hy)

theorem Backed.congr {back' : α → β} (h : Backed back mk prev l)
    (heq : ∀ y ∈ l, back' y = back y) : Backed back' mk prev l := by
  induction l generalizing prev with
  | nil => trivial
  | cons x l ih =>
    refine ⟨?_, ih h.2 fun y hy => heq y (List.mem_cons_of_mem x hy)⟩
    rw [heq x List.mem_cons_self]
    exact h.1

/-- Stores to other nodes do not touch the list. -/
theorem Doubly.congr {next' : α → Option α} {back' : α → β} (h : Doubly next back mk p l)
    (hnext : ∀ y ∈ l, next' y = next y) (hback : ∀ y ∈ l, back' y = back y) :
    Doubly next' back' mk p l :=
  ⟨h.leads.congr hnext, h.backed.congr hback, h.nodup⟩

theorem Doubly.nil : Doubly next back mk none ([] : List α) := ⟨rfl, trivial, List.nodup_nil⟩

variable [DecidableEq α]

/-- A store through a pointer that may be null. -/
def storeAt {γ : Type*} (f : α → γ) : Option α → γ → α → γ
  | none, _ => f
  | some y, v => Function.update f y v

theorem storeAt_of_ne {γ : Type*} {f : α → γ} {q : Option α} {v : γ} (h : q ≠ some x) :
    storeAt f q v x = f x := by
  cases q with
  | none => rfl
  | some y =>
    have hne : x ≠ y := fun he => h (congrArg some he.symm)
    exact update_of_ne hne ..

theorem Doubly.push (h : Doubly next back mk p l) (hx : x ∉ l) :
    Doubly (update next x p)
      (update (storeAt back p (mk (some x))) x (mk none)) mk (some x) (x :: l) := by
  refine ⟨⟨rfl, ?_⟩, ⟨update_self .., ?_⟩, List.nodup_cons.mpr ⟨hx, h.nodup⟩⟩
  · rw [update_self]
    exact h.leads.store hx
  · cases l with
    | nil => trivial
    | cons y l =>
      obtain ⟨hy, hl⟩ := List.nodup_cons.mp h.nodup
      have hne : ∀ z ∈ y :: l, z ≠ x := fun z hz he => hx (he ▸ hz)
      rw [h.leads.1]
      refine ⟨?_, h.backed.2.congr fun z hz => ?_⟩
      · rw [update_of_ne (hne y List.mem_cons_self)]
        exact update_self ..
      · have hzy : z ≠ y := fun he => hy (he ▸ hz)
        rw [update_of_ne (hne z (List.mem_cons_of_mem y hz))]
        exact update_of_ne hzy ..

omit [DecidableEq α] in
theorem Backed.at (h : Backed back mk prev (l ++ x :: r)) : back x = mk (l.getLast?.or prev) := by
  induction l generalizing prev with
  | nil => exact h.1
  | cons y l ih =>
    rw [← last_cons]
    exact ih h.2

/-- The node after `x` gets the pointer that `x` has. -/
theorem Backed.unlink (h : Backed back mk prev (l ++ x :: r)) (hnd : (l ++ x :: r).Nodup) :
    Backed (storeAt back r.head? (back x)) mk prev (l ++ r) := by
  induction l generalizing prev with
  | nil =>
    cases r with
    | nil => trivial
    | cons z r =>
      have hz : z ∉ r := (List.nodup_cons.mp (List.nodup_cons.mp hnd).2).1
      refine ⟨(update_self ..).trans h.1, h.2.2.congr fun y hy => ?_⟩
      have hyz : y ≠ z := fun he => hz (he ▸ hy)
      exact update_of_ne hyz ..
  | cons y l ih =>
    rw [List.cons_append, List.nodup_cons] at hnd
    refine ⟨?_, ih h.2 hnd.2⟩
    rw [storeAt_of_ne]
    · exact h.1
    · intro he
      exact hnd.1 (List.mem_append_right l (List.mem_cons_of_mem x (List.mem_of_mem_head? he)))

/-- A node is taken out by stores to the one before it, or to the head, and to the one after. -/
theorem Doubly.remove (h : Doubly next back mk p l) (hx : x ∈ l) :
    ∃ q : Option α, back x = mk q ∧ (p = some x ↔ q = none) ∧ (∀ y ∈ q, y ∈ l ∧ y ≠ x) ∧
      (∀ z ∈ next x, z ∈ l ∧ z ≠ x) ∧
      Doubly (storeAt next q (next x)) (storeAt back (next x) (back x)) mk
        (if q = none then next x else p) (l.erase x) := by
  obtain ⟨l, r, rfl⟩ := List.append_of_mem hx
  have hnd := h.nodup
  obtain ⟨-, hxr, hdisj⟩ := List.nodup_append'.mp hnd
  have hxl : x ∉ l := fun hm => hdisj hm List.mem_cons_self
  have hnext : next x = r.head? := h.leads.next_of_append.head
  have hback : back x = mk l.getLast? := by
    have := h.backed.at
    rwa [Option.or_none] at this
  have herase : (l ++ x :: r).erase x = l ++ r := by
    rw [List.erase_append_right _ hxl, List.erase_cons_head]
  refine ⟨l.getLast?, hback, ?_, ?_, ?_, ?_⟩
  · rw [h.leads.head]
    cases l with
    | nil => exact ⟨fun _ => rfl, fun _ => rfl⟩
    | cons y l =>
      have hne : y ≠ x := fun he => hxl (he ▸ List.mem_cons_self)
      rw [List.getLast?_cons]
      exact ⟨fun he => absurd (Option.some.inj he) hne, fun he => absurd he (Option.some_ne_none _)⟩
  · intro y hy
    have hyl := List.mem_of_getLast? hy
    exact ⟨List.mem_append_left _ hyl, fun he => hxl (he ▸ hyl)⟩
  · intro z hz
    rw [hnext] at hz
    have hzr := List.mem_of_mem_head? hz
    exact ⟨List.mem_append_right l (List.mem_cons_of_mem x hzr),
      fun he => (List.nodup_cons.mp hxr).1 (he ▸ hzr)⟩
  · rw [herase]
    refine ⟨?_, hnext ▸ h.backed.unlink hnd, ?_⟩
    · rcases List.eq_nil_or_concat l with rfl | ⟨l, y, rfl⟩
      · exact h.leads.2
      · rw [List.concat_eq_append, List.getLast?_concat, if_neg (Option.some_ne_none y)]
        simp only [List.concat_eq_append, List.append_assoc, List.singleton_append] at h hnd ⊢
        exact h.leads.unlink hnd
    · exact herase ▸ hnd.erase x

end Doubly

section Family

variable {β ι : Type*}

/-- The lists `L i`, each with its head; a node in none of them has null pointers, `nil` being
the null pointer back. -/
structure Family (nil : β) (mk : ι → Option α → β) (next : α → Option α) (back : α → β)
    (head : ι → Option α) (L : ι → List α) : Prop where
  doubly : ∀ i, Doubly next back (mk i) (head i) (L i)
  disjoint : ∀ i j x, x ∈ L i → x ∈ L j → i = j
  free : ∀ x, (∀ i, x ∉ L i) → next x = none ∧ back x = nil

variable {nil : β} {mk : ι → Option α → β} {back : α → β} {head : ι → Option α} {L : ι → List α}
  {i : ι}

theorem Family.empty : Family nil mk (fun _ : α => none) (fun _ => nil) (fun _ => none)
    (fun _ => []) where
  doubly _ := .nil
  disjoint _ _ _ h _ := absurd h List.not_mem_nil
  free _ _ := ⟨rfl, rfl⟩

theorem Family.mem_of_head (h : Family nil mk next back head L) (hx : head i = some x) :
    x ∈ L i := by
  have hhead := (h.doubly i).leads.head
  rw [hx] at hhead
  exact List.mem_of_mem_head? hhead.symm

variable [DecidableEq α] [DecidableEq ι]

omit [DecidableEq α] in
theorem mem_update_cons {j : ι} {y : α} :
    y ∈ update L i (x :: L i) j ↔ y ∈ L j ∨ j = i ∧ y = x := by
  by_cases hji : j = i
  · subst hji
    rw [update_self, List.mem_cons, or_comm]
    simp only [true_and]
  · rw [update_of_ne hji]
    exact ⟨.inl, fun hy => hy.resolve_right fun he => hji he.1⟩

theorem Family.mem_erase (h : Family nil mk next back head L) (hx : x ∈ L i) {j : ι} {y : α} :
    y ∈ update L i ((L i).erase x) j ↔ y ∈ L j ∧ y ≠ x := by
  by_cases hji : j = i
  · rw [hji, update_self, (h.doubly i).nodup.mem_erase_iff, and_comm]
  · rw [update_of_ne hji]
    exact ⟨fun hy => ⟨hy, fun he => hji (h.disjoint j i x (he ▸ hy) hx)⟩, And.left⟩

theorem Family.push (h : Family nil mk next back head L) (hx : ∀ j, x ∉ L j) (i : ι) :
    Family nil mk (update next x (head i))
      (update (storeAt back (head i) (mk i (some x))) x (mk i none))
      (update head i (some x)) (update L i (x :: L i)) := by
  have hne : ∀ j, ∀ y ∈ L j, y ≠ x := fun j y hy he => hx j (he ▸ hy)
  refine ⟨fun j => ?_, fun j k y hj hk => ?_, fun y hy => ?_⟩
  · by_cases hji : j = i
    · subst hji
      rw [update_self, update_self]
      exact (h.doubly j).push (hx j)
    · rw [update_of_ne hji, update_of_ne hji]
      refine (h.doubly j).congr (fun y hy => update_of_ne (hne j y hy) ..) fun y hy => ?_
      rw [update_of_ne (hne j y hy), storeAt_of_ne]
      exact fun hhead => hji (h.disjoint j i y hy (h.mem_of_head hhead))
  · rcases mem_update_cons.mp hj with hyj | ⟨hji, hyx⟩ <;>
      rcases mem_update_cons.mp hk with hyk | ⟨hki, hyx'⟩
    · exact h.disjoint j k y hyj hyk
    · exact absurd hyx' (hne j y hyj)
    · exact absurd hyx (hne k y hyk)
    · exact hji.trans hki.symm
  · have hyx : y ≠ x := fun he => hy i (mem_update_cons.mpr (.inr ⟨rfl, he⟩))
    have hyj : ∀ j, y ∉ L j := fun j hyj => hy j (mem_update_cons.mpr (.inl hyj))
    obtain ⟨hnext, hback⟩ := h.free y hyj
    rw [update_of_ne hyx, update_of_ne hyx, storeAt_of_ne]
    · exact ⟨hnext, hback⟩
    · exact fun hhead => hyj i (h.mem_of_head hhead)

theorem Family.remove (h : Family nil mk next back head L) (hx : x ∈ L i) :
    ∃ q : Option α, back x = mk i q ∧ (head i = some x ↔ q = none) ∧
      Family nil mk (update (storeAt next q (next x)) x none)
        (update (storeAt back (next x) (back x)) x nil)
        (if q = none then update head i (next x) else head)
        (update L i ((L i).erase x)) := by
  obtain ⟨q, hback, hhead, hq, hz, hd⟩ := (h.doubly i).remove hx
  have hsub : ∀ j y, y ∈ update L i ((L i).erase x) j ↔ y ∈ L j ∧ y ≠ x :=
    fun j y => h.mem_erase hx
  -- the stores to other nodes are to nodes of the list
  have hnext : ∀ y, y ≠ x → y ∉ L i →
      update (storeAt next q (next x)) x none y = next y ∧
        update (storeAt back (next x) (back x)) x nil y = back y := by
    intro y hy hyi
    rw [update_of_ne hy, update_of_ne hy, storeAt_of_ne, storeAt_of_ne]
    · exact ⟨rfl, rfl⟩
    · exact fun he => hyi (hz y he).1
    · exact fun he => hyi (hq y he).1
  refine ⟨q, hback, hhead, ⟨fun j => ?_, fun j k y hj hk => ?_, fun y hy => ?_⟩⟩
  · by_cases hji : j = i
    · subst hji
      have hhead' : (if q = none then update head j (next x) else head) j =
          if q = none then next x else head j := by
        split
        · exact update_self ..
        · rfl
      rw [hhead', update_self]
      have hne : ∀ y ∈ (L j).erase x, y ≠ x := fun y hy =>
        ((h.doubly j).nodup.mem_erase_iff.mp hy).1
      exact hd.congr (fun y hy => update_of_ne (hne y hy) ..)
        fun y hy => update_of_ne (hne y hy) ..
    · have hhead' : (if q = none then update head i (next x) else head) j = head j := by
        split
        · exact update_of_ne hji ..
        · rfl
      rw [hhead', update_of_ne hji]
      have hout : ∀ y ∈ L j, y ≠ x ∧ y ∉ L i := fun y hy =>
        ⟨fun he => hji (h.disjoint j i x (he ▸ hy) hx), fun hyi => hji (h.disjoint j i y hy hyi)⟩
      exact (h.doubly j).congr (fun y hy => (hnext y (hout y hy).1 (hout y hy).2).1)
        fun y hy => (hnext y (hout y hy).1 (hout y hy).2).2
  · exact h.disjoint j k y ((hsub j y).mp hj).1 ((hsub k y).mp hk).1
  · by_cases hyx : y = x
    · rw [hyx, update_self, update_self]
      exact ⟨rfl, rfl⟩
    · have hout : ∀ j, y ∉ L j := fun j hyj => hy j ((hsub j y).mpr ⟨hyj, hyx⟩)
      rw [(hnext y hyx (hout i)).1, (hnext y hyx (hout i)).2]
      exact h.free y hout

end Family

end Stackweave.LinkedList
