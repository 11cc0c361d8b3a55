import Mathlib.Data.List.Induction
import Mathlib.Data.List.Sort
import Mathlib.Tactic.Common

/-!
# `StreamReader` (`aio/streams.py`)

The reader keeps what it has received and not returned in a buffer and asks the socket for more
when a call needs it. The socket has the stream in chunks, as they arrived, and then its end.

* `readuntil_chunkless`: what `readuntil` does depends on the unread stream alone.
* A call only takes from the front of the unread stream, and what it takes it returns or puts into
  its exception.
-/

namespace Stackweave.Aio.StreamReader

variable {α : Type*}

/-- The socket's chunks are those that `recv` has not taken. -/
structure Reader (α : Type*) where
  limit : ℕ
  buf : List α
  eof : Bool
  chunks : List (List α)
  limit_pos : 0 < limit
  chunks_ne : ∀ c ∈ chunks, c ≠ []
  ended : eof = true → chunks = []

namespace Reader

def start (limit : ℕ) (chunks : List (List α)) (hl : 0 < limit) (hc : ∀ c ∈ chunks, c ≠ []) :
    Reader α :=
  ⟨limit, [], false, chunks, hl, hc, fun h => absurd h Bool.false_ne_true⟩

variable (r : Reader α)

/-- The stream from here on. -/
def unread : List α := r.buf ++ r.chunks.flatten

/-- The turns that are left until the end is known. -/
def left : ℕ := r.chunks.flatten.length + if r.eof then 0 else 1

/-- `self._buf[:n]` is taken out of the buffer. -/
def consume (n : ℕ) : Reader α := { r with buf := r.buf.drop n }

/-- What `recv` leaves of a chunk. -/
def rest (c : List α) (cs : List (List α)) : List (List α) :=
  if c.length ≤ r.limit then cs else c.drop r.limit :: cs

theorem rest_ne {c : List α} {cs : List (List α)} (h : ∀ d ∈ cs, d ≠ []) :
    ∀ d ∈ r.rest c cs, d ≠ [] := by
  unfold rest
  split
  · exact h
  · rename_i hlt
    intro d hd
    rcases List.mem_cons.mp hd with rfl | hd
    · simpa using hlt
    · exact h d hd

/-- `_fill` -/
def fill : Bool × Reader α :=
  if he : r.eof = true then (false, r)
  else
    match h : r.chunks with
    | [] => (false, { r with eof := true, ended := fun _ => h })
    | c :: cs =>
      (true, { r with
        buf := r.buf ++ c.take r.limit
        chunks := r.rest c cs
        chunks_ne := r.rest_ne fun d hd => r.chunks_ne d (h ▸ List.mem_cons_of_mem c hd)
        ended := fun h => absurd h he })

@[simp] theorem rest_flatten (c : List α) (cs : List (List α)) :
    c.take r.limit ++ (r.rest c cs).flatten = c ++ cs.flatten := by
  unfold rest
  split
  · rename_i hle
    rw [List.take_of_length_le hle]
  · rw [List.flatten_cons, ← List.append_assoc, List.take_append_drop]

/-- Nothing is lost and nothing is made up. -/
@[simp] theorem fill_unread : r.fill.2.unread = r.unread := by
  unfold fill
  split
  · rfl
  · split
    · rename_i h
      simp [unread, h]
    · rename_i c cs h
      simp [unread, h]

@[simp] theorem fill_limit : r.fill.2.limit = r.limit := by
  unfold fill
  split
  · rfl
  · split <;> rfl

/-- The reader fills its buffer as long as there is a chunk, and then it knows the end. -/
theorem fill_left (h : r.eof = false) : r.fill.2.left < r.left := by
  unfold fill
  simp only [h, Bool.false_eq_true, ↓reduceDIte]
  split
  · rename_i hc
    simp [left, hc, h]
  · rename_i c cs hc
    have hne : c ≠ [] := r.chunks_ne c (hc ▸ List.mem_cons_self)
    have hpos := List.length_pos_iff.mpr hne
    have hlim := r.limit_pos
    have hsum := congrArg List.length (r.rest_flatten c cs)
    simp only [List.length_append, List.length_take] at hsum
    simp only [left, hc, h, Bool.false_eq_true, ↓reduceIte, List.flatten_cons, List.length_append]
    omega

/-- At the end the buffer is all there is. -/
theorem unread_of_eof (h : r.eof = true) : r.unread = r.buf := by
  simp [unread, r.ended h]

end Reader

/-! ## The calls -/

/-- How a call ends. `overrun` is `LimitOverrunError`, with the text of the case in which the
separator was found and of the case in which it was not, and with its `consumed`. -/
inductive Outcome (α : Type*)
  | data (bytes : List α)
  | incomplete (bytes : List α)
  | overrun (found : Bool) (consumed : ℕ)
  | valueError

/-- The bytes that the caller gets. -/
def Outcome.bytes : Outcome α → List α
  | .data bytes | .incomplete bytes => bytes
  | .overrun _ _ | .valueError => []

namespace Reader

/-- `while not self._eof: self._fill()` -/
def fillAll (r : Reader α) : Reader α :=
  if r.eof = true then r else fillAll r.fill.2
termination_by r.left
decreasing_by exact r.fill_left (by simp_all)

/-- `while not self._buf and not self._eof: self._fill()` -/
def fillSome (r : Reader α) : Reader α :=
  if r.buf ≠ [] ∨ r.eof = true then r else fillSome r.fill.2
termination_by r.left
decreasing_by exact r.fill_left (by simp_all)

def read (r : Reader α) (n : ℤ) : Outcome α × Reader α :=
  if n = 0 then (.data [], r)
  else if n < 0 then (.data r.fillAll.buf, r.fillAll.consume r.fillAll.buf.length)
  else (.data (r.fillSome.buf.take n.toNat), r.fillSome.consume n.toNat)

/-- Where the slice `[:n]` of a list of this length ends. -/
def sliceEnd (n : ℤ) (length : ℕ) : ℕ := (if n < 0 then n + length else n).toNat

def readexactly (r : Reader α) (n : ℤ) : Outcome α × Reader α :=
  if (r.buf.length : ℤ) < n then
    if r.fill.1 then readexactly r.fill.2 n
    else (.incomplete r.fill.2.buf, r.fill.2.consume r.fill.2.buf.length)
  else (.data (r.buf.take (sliceEnd n r.buf.length)), r.consume (sliceEnd n r.buf.length))
termination_by r.left
decreasing_by
  refine r.fill_left ?_
  by_contra he
  simp_all [fill]

end Reader

/-- The argument of `readuntil`. -/
inductive Separator (α : Type*)
  | bytes (sep : List α)
  | tuple (seps : List (List α))

/-- As the caller gave them. -/
def Separator.all : Separator α → List (List α)
  | .bytes sep => [sep]
  | .tuple seps => seps

/-- Shortest first. -/
def Separator.sorted : Separator α → List (List α)
  | .bytes sep => [sep]
  | .tuple seps => seps.insertionSort fun a b => a.length ≤ b.length

section Search

variable [DecidableEq α]

/-- `buf.find(sep, offset)` -/
def find (sep buf : List α) (offset : ℕ) : Option ℕ :=
  (List.range (buf.length + 1)).find? fun i => decide (offset ≤ i) && sep.isPrefixOf (buf.drop i)

/-- One turn of the loop over the separators: where the match so far starts and ends. -/
def better (buf : List α) (offset : ℕ) (m : Option (ℕ × ℕ)) (sep : List α) : Option (ℕ × ℕ) :=
  match find sep buf offset with
  | none => m
  | some i =>
    match m with
    | none => some (i, i + sep.length)
    | some (start, stop) =>
      if i + sep.length < stop then some (i, i + sep.length) else some (start, stop)

def search (seps : List (List α)) (buf : List α) (offset : ℕ) : Option (ℕ × ℕ) :=
  seps.foldl (better buf offset) none

namespace Reader

/-- The loop of `readuntil`; the separators are `seps`, the shortest of length `m`, the longest
of length `l`. -/
def readuntilFrom (r : Reader α) (seps : List (List α)) (m l offset : ℕ) : Outcome α × Reader α :=
  let scan := m ≤ r.buf.length - offset
  match if scan then search seps r.buf offset else none with
  | some (start, stop) =>
    if r.limit < start then (.overrun true start, r)
    else (.data (r.buf.take stop), r.consume stop)
  | none =>
    let offset := if scan then r.buf.length + 1 - l else offset
    if scan ∧ r.limit < offset then (.overrun false offset, r)
    else if r.eof = true then (.incomplete r.buf, r.consume r.buf.length)
    else readuntilFrom r.fill.2 seps m l offset
termination_by r.left
decreasing_by exact r.fill_left (by simp_all)

def readuntil (r : Reader α) (sep : Separator α) : Outcome α × Reader α :=
  match sep.sorted with
  | [] => (.valueError, r)
  | sep :: seps =>
    if sep.length = 0 then (.valueError, r)
    else
      r.readuntilFrom (sep :: seps) sep.length ((sep :: seps).getLast (by simp)).length 0

end Reader

inductive Call (α : Type*)
  | read (n : ℤ)
  | readexactly (n : ℤ)
  | readuntil (sep : Separator α)

def Reader.call (r : Reader α) : Call α → Outcome α × Reader α
  | .read n => r.read n
  | .readexactly n => r.readexactly n
  | .readuntil sep => r.readuntil sep

/-- A sequence of calls, with what each of them gave. -/
def Reader.calls (r : Reader α) : List (Call α) → List (Outcome α) × Reader α
  | [] => ([], r)
  | c :: cs => ((r.call c).1 :: ((r.call c).2.calls cs).1, ((r.call c).2.calls cs).2)

/-! ## What `readuntil` is to do -/

/-- Without the text and the `consumed` of the exception. -/
inductive Kind (α : Type*)
  | data (bytes : List α)
  | incomplete (bytes : List α)
  | overrun
  | valueError
  deriving DecidableEq

def Outcome.kind : Outcome α → Kind α
  | .data bytes => .data bytes
  | .incomplete bytes => .incomplete bytes
  | .overrun _ _ => .overrun
  | .valueError => .valueError

/-- The separators that end at `e`. -/
def endingAt (seps : List (List α)) (rest : List α) (e : ℕ) : List (List α) :=
  seps.filter fun sep => sep.isSuffixOf (rest.take e)

/-- The end of the shortest prefix that ends with a separator. -/
def firstEnd (seps : List (List α)) (rest : List α) : Option ℕ :=
  (List.range (rest.length + 1)).find? fun e => (endingAt seps rest e).isEmpty = false

def shortest (seps : List (List α)) : ℕ := (seps.map List.length).min?.getD 0

def longest (seps : List (List α)) : ℕ := (seps.map List.length).max?.getD 0

/-- The outcome, and what is unread afterwards. -/
def expected (limit : ℕ) (seps : List (List α)) (rest : List α) : Kind α × List α :=
  match firstEnd seps rest with
  | some e =>
    if e - shortest (endingAt seps rest e) ≤ limit then (.data (rest.take e), rest.drop e)
    else (.overrun, rest)
  | none =>
    if limit < rest.length + 1 - longest seps then (.overrun, rest) else (.incomplete rest, [])

/-! ## Occurrences of separators -/

variable {sep buf rest : List α} {offset start stop : ℕ} {seps : List (List α)}

theorem find_eq_some {i : ℕ} (h : find sep buf offset = some i) :
    offset ≤ i ∧ sep <+: buf.drop i ∧ ∀ j, offset ≤ j → j < i → ¬sep <+: buf.drop j := by
  obtain ⟨hi, -, hmin⟩ := List.find?_range_eq_some.mp h
  simp only [Bool.and_eq_true, decide_eq_true_eq, List.isPrefixOf_iff_prefix] at hi
  refine ⟨hi.1, hi.2, fun j hj hlt hp => ?_⟩
  have := hmin j hlt
  simp [hj, List.isPrefixOf_iff_prefix.mpr hp] at this

theorem find_eq_none (hsep : sep ≠ [])
    (h : find sep buf offset = none) (i : ℕ) (hi : offset ≤ i) : ¬sep <+: buf.drop i := by
  intro hp
  have hlen : i < buf.length + 1 := by
    have hle := hp.length_le
    have hpos := List.length_pos_iff.mpr hsep
    simp only [List.length_drop] at hle
    omega
  have := List.find?_range_eq_none.mp h i hlen
  simp [hi, List.isPrefixOf_iff_prefix.mpr hp] at this

omit [DecidableEq α] in
/-- An occurrence that is complete in the buffer is one in the stream. -/
theorem prefix_drop_append {more : List α} {i : ℕ} (hlen : i + sep.length ≤ buf.length) :
    sep <+: (buf ++ more).drop i ↔ sep <+: buf.drop i := by
  rw [List.drop_append_of_le_length (by omega)]
  constructor
  · intro h
    exact List.prefix_of_prefix_length_le h (List.prefix_append _ _) (by simp; omega)
  · exact fun h => h.trans (List.prefix_append _ _)

omit [DecidableEq α] in
theorem suffix_take_iff {e : ℕ} (he : e ≤ rest.length) :
    sep <:+ rest.take e ↔ ∃ i, i + sep.length = e ∧ sep <+: rest.drop i := by
  constructor
  · rintro ⟨pre, hpre⟩
    have hlen : pre.length + sep.length = e := by
      have := congrArg List.length hpre
      simp only [List.length_append, List.length_take] at this
      omega
    refine ⟨pre.length, hlen, ?_⟩
    have hrest : rest = pre ++ sep ++ rest.drop e := by rw [hpre, List.take_append_drop]
    rw [hrest, List.append_assoc, List.drop_left]
    exact List.prefix_append _ _
  · rintro ⟨i, rfl, post, hpost⟩
    refine ⟨rest.take i, ?_⟩
    have hdrop : sep = (rest.drop i).take sep.length := by rw [← hpost, List.take_left]
    rw [List.take_add, ← hdrop]

theorem mem_endingAt {e : ℕ} (he : e ≤ rest.length) :
    sep ∈ endingAt seps rest e ↔ sep ∈ seps ∧ ∃ i, i + sep.length = e ∧ sep <+: rest.drop i := by
  rw [endingAt, List.mem_filter, List.isSuffixOf_iff_suffix, suffix_take_iff he]

/-- The place of a match in the stream: it ends first, and no shorter separator ends there. -/
structure Match (seps : List (List α)) (rest : List α) (start stop : ℕ) : Prop where
  occurs : ∃ sep ∈ seps, start + sep.length = stop ∧ sep <+: rest.drop start
  first : ∀ sep ∈ seps, ∀ i, sep <+: rest.drop i →
    stop < i + sep.length ∨ stop = i + sep.length ∧ stop - start ≤ sep.length

omit [DecidableEq α] in
theorem Match.le_length
    (h : Match seps rest start stop) (hne : ∀ sep ∈ seps, sep ≠ []) : stop ≤ rest.length := by
  obtain ⟨sep, hsep, rfl, hp⟩ := h.occurs
  have hle := hp.length_le
  have hpos := List.length_pos_iff.mpr (hne sep hsep)
  simp only [List.length_drop] at hle
  omega

theorem Match.firstEnd
    (h : Match seps rest start stop) (hne : ∀ sep ∈ seps, sep ≠ []) :
    firstEnd seps rest = some stop := by
  have hle := h.le_length hne
  refine List.find?_range_eq_some.mpr ⟨?_, List.mem_range.mpr (by omega), fun e he => ?_⟩
  · obtain ⟨sep, hsep, hlen, hp⟩ := h.occurs
    have hmem := (mem_endingAt hle).mpr ⟨hsep, start, hlen, hp⟩
    simp [List.ne_nil_of_mem hmem]
  · have hnil : endingAt seps rest e = [] := by
      refine List.eq_nil_iff_forall_not_mem.mpr fun sep hsep => ?_
      obtain ⟨hmem, i, hi, hp⟩ := (mem_endingAt (by omega)).mp hsep
      have := h.first sep hmem i hp
      omega
    simp [hnil]

theorem Match.shortest
    (h : Match seps rest start stop) (hne : ∀ sep ∈ seps, sep ≠ []) :
    shortest (endingAt seps rest stop) = stop - start := by
  have hle := h.le_length hne
  have hmin : ((endingAt seps rest stop).map List.length).min? = some (stop - start) := by
    rw [List.min?_eq_some_iff]
    constructor
    · obtain ⟨sep, hsep, hlen, hp⟩ := h.occurs
      exact List.mem_map.mpr ⟨sep, (mem_endingAt hle).mpr ⟨hsep, start, hlen, hp⟩, by omega⟩
    · intro n hn
      obtain ⟨sep, hsep, rfl⟩ := List.mem_map.mp hn
      obtain ⟨hmem, i, hi, hp⟩ := (mem_endingAt hle).mp hsep
      rcases h.first sep hmem i hp with hlt | ⟨-, hle⟩
      · omega
      · exact hle
  rw [StreamReader.shortest, hmin]
  rfl

/-- With a match the outcome is decided by where it starts. -/
theorem Match.expected {limit : ℕ}
    (h : Match seps rest start stop) (hne : ∀ sep ∈ seps, sep ≠ []) :
    expected limit seps rest =
      if start ≤ limit then (.data (rest.take stop), rest.drop stop) else (.overrun, rest) := by
  have hstart : stop - (stop - start) = start := by
    obtain ⟨sep, -, hlen, -⟩ := h.occurs
    omega
  simp only [StreamReader.expected, h.firstEnd hne, h.shortest hne, hstart]

theorem firstEnd_eq_none
    (h : ∀ sep ∈ seps, ∀ i, ¬sep <+: rest.drop i) : firstEnd seps rest = none := by
  refine List.find?_range_eq_none.mpr fun e he => ?_
  have hnil : endingAt seps rest e = [] := by
    refine List.eq_nil_iff_forall_not_mem.mpr fun sep hsep => ?_
    obtain ⟨hmem, i, -, hp⟩ := (mem_endingAt (by omega)).mp hsep
    exact h sep hmem i hp
  simp [hnil]

/-- Where every occurrence starts beyond the limit the call gives up. -/
theorem expected_overrun {limit : ℕ}
    (hlim : limit < offset) (h : ∀ sep ∈ seps, ∀ i < offset, ¬sep <+: rest.drop i)
    (hlen : offset ≤ rest.length + 1 - longest seps) :
    expected limit seps rest = (.overrun, rest) := by
  unfold expected
  split
  · rename_i e he
    obtain ⟨hne, hmem, -⟩ := List.find?_range_eq_some.mp he
    have hle : e ≤ rest.length := by
      have := List.mem_range.mp hmem
      omega
    have hstart : ¬e - shortest (endingAt seps rest e) ≤ limit := by
      have hcons : (endingAt seps rest e).map List.length ≠ [] := by simpa using hne
      obtain ⟨n, hn⟩ := Option.isSome_iff_exists.mp (List.isSome_min?_iff.mpr hcons)
      have hin := (List.min?_eq_some_iff.mp hn).1
      obtain ⟨sep, hsep, rfl⟩ := List.mem_map.mp hin
      obtain ⟨hs, i, hi, hp⟩ := (mem_endingAt hle).mp hsep
      have hoff : ¬i < offset := fun hlt => h sep hs i hlt hp
      rw [shortest, hn, Option.getD_some]
      omega
    rw [if_neg hstart]
  · rw [if_pos (by omega)]

/-! ## The search -/

/-- What the loop over the separators has found. -/
structure Selected (seps : List (List α)) (buf : List α) (offset : ℕ) (m : Option (ℕ × ℕ)) :
    Prop where
  none : m = none → ∀ sep ∈ seps, find sep buf offset = none
  occurs : ∀ start stop, m = some (start, stop) →
    ∃ sep ∈ seps, start + sep.length = stop ∧ find sep buf offset = some start
  first : ∀ start stop, m = some (start, stop) → ∀ sep ∈ seps, ∀ i,
    find sep buf offset = some i →
      stop < i + sep.length ∨ stop = i + sep.length ∧ stop - start ≤ sep.length

/-- A separator that is no shorter than those before it. -/
theorem Selected.snoc
    {m : Option (ℕ × ℕ)} (h : Selected seps buf offset m)
    (hlen : ∀ a ∈ seps, a.length ≤ sep.length) :
    Selected (seps ++ [sep]) buf offset (better buf offset m sep) := by
  unfold better
  split
  · rename_i hf
    refine ⟨fun hm a ha => ?_, fun start stop hm => ?_, fun start stop hm a ha i hi => ?_⟩
    · rcases List.mem_append.mp ha with ha | ha
      · exact h.none hm a ha
      · rw [List.mem_singleton.mp ha]
        exact hf
    · obtain ⟨a, ha, hstop⟩ := h.occurs start stop hm
      exact ⟨a, List.mem_append_left _ ha, hstop⟩
    · rcases List.mem_append.mp ha with ha | ha
      · exact h.first start stop hm a ha i hi
      · rw [List.mem_singleton.mp ha, hf] at hi
        cases hi
  · rename_i i hf
    have last {a : List α} (ha : a ∈ [sep]) {j : ℕ} (hj : find a buf offset = some j) :
        a = sep ∧ j = i := by
      obtain rfl := List.mem_singleton.mp ha
      exact ⟨rfl, Option.some.inj (hj.symm.trans hf)⟩
    cases m with
    | none =>
      refine ⟨by rintro ⟨⟩, fun start stop hm => ?_, fun start stop hm a ha j hj => ?_⟩
      · cases hm
        exact ⟨sep, List.mem_append_right _ List.mem_cons_self, rfl, hf⟩
      · cases hm
        rcases List.mem_append.mp ha with ha | ha
        · rw [h.none rfl a ha] at hj
          cases hj
        · obtain ⟨rfl, rfl⟩ := last ha hj
          omega
    | some p =>
      obtain ⟨start', stop'⟩ := p
      obtain ⟨b, hb, hstop, hfind⟩ := h.occurs start' stop' rfl
      have hshort := hlen b hb
      simp only
      split
      · rename_i hlt
        refine ⟨by rintro ⟨⟩, fun start stop hm => ?_, fun start stop hm a ha j hj => ?_⟩
        · cases hm
          exact ⟨sep, List.mem_append_right _ List.mem_cons_self, rfl, hf⟩
        · cases hm
          rcases List.mem_append.mp ha with ha | ha
          · have := h.first start' stop' rfl a ha j hj
            omega
          · obtain ⟨rfl, rfl⟩ := last ha hj
            omega
      · rename_i hge
        refine ⟨by rintro ⟨⟩, fun start stop hm => ?_, fun start stop hm a ha j hj => ?_⟩
        · cases hm
          exact ⟨b, List.mem_append_left _ hb, hstop, hfind⟩
        · cases hm
          rcases List.mem_append.mp ha with ha | ha
          · exact h.first start' stop' rfl a ha j hj
          · obtain ⟨rfl, rfl⟩ := last ha hj
            omega

theorem search_selected (buf : List α) (offset : ℕ)
    (hsorted : seps.Pairwise fun a b => a.length ≤ b.length) :
    Selected seps buf offset (search seps buf offset) := by
  induction seps using List.reverseRecOn with
  | nil => exact ⟨by rintro _ _ ⟨⟩, by rintro _ _ ⟨⟩, by rintro _ _ ⟨⟩⟩
  | append_singleton seps sep ih =>
    obtain ⟨hseps, -, hlen⟩ := List.pairwise_append.mp hsorted
    rw [search, List.foldl_append]
    exact (ih hseps).snoc fun a ha => hlen a ha sep List.mem_cons_self

/-! ## The loop -/

/-- The separators of a call, sorted: the shortest has length `m`, the longest `l`. -/
structure Sorted (seps : List (List α)) (m l : ℕ) : Prop where
  pairwise : seps.Pairwise fun a b => a.length ≤ b.length
  ne : ∀ sep ∈ seps, sep ≠ []
  least : ∀ sep ∈ seps, m ≤ sep.length
  most : ∀ sep ∈ seps, sep.length ≤ l
  longest : longest seps = l
  le : m ≤ l

/-- No separator starts before the offset. -/
def Clear (seps : List (List α)) (rest : List α) (offset : ℕ) : Prop :=
  ∀ sep ∈ seps, ∀ i < offset, ¬sep <+: rest.drop i

/-- What the buffer shows where the search finds nothing. -/
theorem Clear.advance {m l : ℕ} {more : List α}
    (h : Clear seps (buf ++ more) offset) (hs : Sorted seps m l)
    (hnone : ∀ sep ∈ seps, find sep buf offset = none) :
    Clear seps (buf ++ more) (buf.length + 1 - l) := by
  intro sep hsep i hi hp
  by_cases hlt : i < offset
  · exact h sep hsep i hlt hp
  · have hmost := hs.most sep hsep
    have hlen : i + sep.length ≤ buf.length := by omega
    exact find_eq_none (hs.ne sep hsep) (hnone sep hsep) i (by omega)
      ((prefix_drop_append hlen).mp hp)

/-- A match in the buffer is the one in the stream. -/
theorem Clear.found {m l : ℕ} {more : List α}
    (h : Clear seps (buf ++ more) offset) (hs : Sorted seps m l)
    (hsearch : search seps buf offset = some (start, stop)) :
    Match seps (buf ++ more) start stop ∧ stop ≤ buf.length := by
  have hsel := search_selected buf offset hs.pairwise
  obtain ⟨sep, hsep, hstop, hfind⟩ := hsel.occurs start stop hsearch
  have hp := (find_eq_some hfind).2.1
  have hle : stop ≤ buf.length := by
    have hlen := hp.length_le
    have hpos := List.length_pos_iff.mpr (hs.ne sep hsep)
    simp only [List.length_drop] at hlen
    omega
  refine ⟨⟨⟨sep, hsep, hstop, (prefix_drop_append (by omega)).mpr hp⟩, ?_⟩, hle⟩
  intro a ha i hi
  by_cases hlen : i + a.length ≤ buf.length
  · have hoff : offset ≤ i := by
      by_contra hlt
      exact h a ha i (by omega) hi
    have hbuf := (prefix_drop_append hlen).mp hi
    cases hf : find a buf offset with
    | none => exact absurd hbuf (find_eq_none (hs.ne a ha) hf i hoff)
    | some j =>
      -- the first occurrence of `a` is no later than this one
      have hji : j ≤ i := by
        by_contra hlt
        exact (find_eq_some hf).2.2 i hoff (by omega) hbuf
      have := hsel.first start stop hsearch a ha j hf
      omega
  · omega

namespace Reader

/-- By induction on the loop: nothing before the offset starts a separator, and the offset is
within the limit. -/
theorem readuntilFrom_eq (r : Reader α) {seps : List (List α)} {m l : ℕ} (hs : Sorted seps m l)
    (offset : ℕ) (hclear : Clear seps r.unread offset) (hoff : offset ≤ r.limit) :
    ((r.readuntilFrom seps m l offset).1.kind, (r.readuntilFrom seps m l offset).2.unread) =
      expected r.limit seps r.unread := by
  induction hn : r.left using Nat.strong_induction_on generalizing r offset with
  | _ n ih =>
    have hdata : r.unread = r.buf ++ r.chunks.flatten := rfl
    rw [readuntilFrom]
    by_cases hscan : m ≤ r.buf.length - offset
    · simp only [hscan, ↓reduceIte, true_and]
      cases hsearch : search seps r.buf offset with
      | some p =>
        obtain ⟨start, stop⟩ := p
        obtain ⟨hmatch, hle⟩ := hclear.found hs hsearch
        rw [hdata, hmatch.expected hs.ne]
        simp only
        by_cases hlim : r.limit < start
        · rw [if_pos hlim, if_neg (by omega)]
          rfl
        · rw [if_neg hlim, if_pos (by omega), List.take_append_of_le_length hle,
            List.drop_append_of_le_length hle]
          rfl
      | none =>
        have hnone := (search_selected r.buf offset hs.pairwise).none hsearch
        have hnext := hclear.advance hs hnone
        simp only
        by_cases hlim : r.limit < r.buf.length + 1 - l
        · rw [if_pos hlim, hdata, expected_overrun hlim hnext]
          · rfl
          · rw [hs.longest, List.length_append]
            omega
        · rw [if_neg hlim]
          by_cases he : r.eof = true
          · rw [if_pos he, r.unread_of_eof he, expected, firstEnd_eq_none, hs.longest, if_neg hlim]
            · simp [consume, unread, Outcome.kind, r.ended he]
            · intro sep hsep i hp
              by_cases hi : i < offset
              · exact hclear sep hsep i hi (by rwa [r.unread_of_eof he])
              · exact find_eq_none (hs.ne sep hsep) (hnone sep hsep) i (by omega) hp
          · rw [if_neg he]
            have hrec := ih _ (hn ▸ r.fill_left (by simpa using he)) r.fill.2
              (r.buf.length + 1 - l) (by rw [fill_unread]; exact hnext) (by rw [fill_limit]; omega) rfl
            rw [hrec, fill_unread, fill_limit]
    · simp only [hscan, ↓reduceIte, false_and]
      by_cases he : r.eof = true
      · rw [if_pos he, r.unread_of_eof he, expected, firstEnd_eq_none, hs.longest, if_neg]
        · simp [consume, unread, Outcome.kind, r.ended he]
        · have := hs.le
          omega
        · intro sep hsep i hp
          have hleast := hs.least sep hsep
          have hlen := hp.length_le
          simp only [List.length_drop] at hlen
          exact hclear sep hsep i (by
            have hpos := List.length_pos_iff.mpr (hs.ne sep hsep)
            omega) (by rwa [r.unread_of_eof he])
      · rw [if_neg he]
        have hrec := ih _ (hn ▸ r.fill_left (by simpa using he)) r.fill.2 offset
          (by rw [fill_unread]; exact hclear) (by rw [fill_limit]; exact hoff) rfl
        rw [hrec, fill_unread, fill_limit]

end Reader

/-! ## The order of the separators -/

omit [DecidableEq α] in
theorem Separator.sorted_perm (sep : Separator α) : sep.sorted.Perm sep.all := by
  cases sep with
  | bytes sep => exact .refl _
  | tuple seps => exact List.perm_insertionSort _ _

omit [DecidableEq α] in
theorem Separator.sorted_pairwise (sep : Separator α) :
    sep.sorted.Pairwise fun a b => a.length ≤ b.length := by
  cases sep with
  | bytes sep => exact List.pairwise_singleton _ _
  | tuple seps =>
    have : Std.Total fun a b : List α => a.length ≤ b.length := ⟨fun a b => Nat.le_total _ _⟩
    have : IsTrans (List α) fun a b => a.length ≤ b.length := ⟨fun _ _ _ => Nat.le_trans⟩
    exact List.pairwise_insertionSort _ _

omit [DecidableEq α] in
theorem shortest_perm {a b : List (List α)} (h : a.Perm b) : shortest a = shortest b := by
  have hmin : (a.map List.length).min? = (b.map List.length).min? := by
    ext n
    simp only [List.min?_eq_some_iff, List.mem_map, h.mem_iff]
  rw [shortest, shortest, hmin]

omit [DecidableEq α] in
theorem longest_perm {a b : List (List α)} (h : a.Perm b) : longest a = longest b := by
  have hmax : (a.map List.length).max? = (b.map List.length).max? := by
    ext n
    simp only [List.max?_eq_some_iff, List.mem_map, h.mem_iff]
  rw [longest, longest, hmax]

theorem expected_perm {a b : List (List α)} (h : a.Perm b) (limit : ℕ) (rest : List α) :
    expected limit a rest = expected limit b rest := by
  have hend (e : ℕ) : (endingAt a rest e).Perm (endingAt b rest e) := h.filter _
  have hfirst : firstEnd a rest = firstEnd b rest := by
    simp only [firstEnd, (hend _).isEmpty_eq]
  simp only [expected, hfirst, longest_perm h, shortest_perm (hend _)]

omit [DecidableEq α] in
/-- A sorted list of separators whose first is not empty. -/
theorem sorted_cons (hne : sep.length ≠ 0)
    (h : (sep :: seps).Pairwise fun a b => a.length ≤ b.length) :
    Sorted (sep :: seps) sep.length ((sep :: seps).getLast (by simp)).length := by
  have hleast : ∀ a ∈ sep :: seps, sep.length ≤ a.length := by
    intro a ha
    rcases List.mem_cons.mp ha with rfl | ha
    · exact Nat.le_refl _
    · exact (List.pairwise_cons.mp h).1 a ha
  have hmost : ∀ a ∈ sep :: seps, a.length ≤ ((sep :: seps).getLast (by simp)).length := by
    intro a ha
    rw [← List.dropLast_append_getLast (List.cons_ne_nil sep seps)] at h ha
    rcases List.mem_append.mp ha with ha | ha
    · exact (List.pairwise_append.mp h).2.2 a ha _ List.mem_cons_self
    · rw [List.mem_singleton.mp ha]
  have hlast := List.getLast_mem (List.cons_ne_nil sep seps)
  refine ⟨h, fun a ha => ?_, hleast, hmost, ?_, hleast _ hlast⟩
  · have := hleast a ha
    exact List.length_pos_iff.mp (by omega)
  · have hmax : ((sep :: seps).map List.length).max? =
        some ((sep :: seps).getLast (by simp)).length := by
      rw [List.max?_eq_some_iff]
      refine ⟨List.mem_map_of_mem hlast, fun n hn => ?_⟩
      obtain ⟨a, ha, rfl⟩ := List.mem_map.mp hn
      exact hmost a ha
    rw [longest, hmax]
    rfl

namespace Reader

theorem readuntil_eq (r : Reader α) (sep : Separator α) {a : List α} {as : List (List α)}
    (h : sep.sorted = a :: as) (ha : a.length ≠ 0) :
    ((r.readuntil sep).1.kind, (r.readuntil sep).2.unread) =
      expected r.limit sep.all r.unread := by
  have hs := sorted_cons ha (h ▸ sep.sorted_pairwise)
  have hperm : (a :: as).Perm sep.all := h ▸ sep.sorted_perm
  rw [← expected_perm hperm, ← r.readuntilFrom_eq hs 0 (fun _ _ _ hi => absurd hi (Nat.not_lt_zero _))
    (Nat.zero_le _)]
  simp only [readuntil, h, ha, ↓reduceIte]

end Reader

/-! ## No byte is lost or repeated -/

def Kind.bytes : Kind α → List α
  | .data bytes | .incomplete bytes => bytes
  | .overrun | .valueError => []

omit [DecidableEq α] in
theorem Outcome.bytes_kind (o : Outcome α) : o.kind.bytes = o.bytes := by cases o <;> rfl

theorem expected_bytes (limit : ℕ) (seps : List (List α)) (rest : List α) :
    (expected limit seps rest).1.bytes ++ (expected limit seps rest).2 = rest := by
  unfold expected
  split
  · split
    · exact List.take_append_drop _ _
    · rfl
  · split
    · rfl
    · exact List.append_nil _

namespace Reader

omit [DecidableEq α] in
theorem take_consume (r : Reader α) (n : ℕ) : r.buf.take n ++ (r.consume n).unread = r.unread := by
  simp only [consume, unread]
  rw [← List.append_assoc, List.take_append_drop]

omit [DecidableEq α] in
theorem all_consume (r : Reader α) : r.buf ++ (r.consume r.buf.length).unread = r.unread := by
  simpa using r.take_consume r.buf.length

omit [DecidableEq α] in
theorem fillAll_unread (r : Reader α) : r.fillAll.unread = r.unread := by
  induction r using fillAll.induct with
  | case1 r he => rw [fillAll, if_pos he]
  | case2 r he ih => rw [fillAll, if_neg he, ih, fill_unread]

omit [DecidableEq α] in
theorem fillSome_unread (r : Reader α) : r.fillSome.unread = r.unread := by
  induction r using fillSome.induct with
  | case1 r he => rw [fillSome, if_pos he]
  | case2 r he ih => rw [fillSome, if_neg he, ih, fill_unread]

omit [DecidableEq α] in
theorem read_bytes (r : Reader α) (n : ℤ) : (r.read n).1.bytes ++ (r.read n).2.unread = r.unread := by
  unfold read
  split
  · rfl
  · split
    · exact r.fillAll.all_consume.trans r.fillAll_unread
    · exact (r.fillSome.take_consume _).trans r.fillSome_unread

omit [DecidableEq α] in
theorem readexactly_bytes (r : Reader α) (n : ℤ) :
    (r.readexactly n).1.bytes ++ (r.readexactly n).2.unread = r.unread := by
  induction r using readexactly.induct n with
  | case1 r hlt hfill ih => rw [readexactly, if_pos hlt, if_pos hfill, ih, fill_unread]
  | case2 r hlt hfill =>
    rw [readexactly, if_pos hlt, if_neg hfill]
    exact r.fill.2.all_consume.trans r.fill_unread
  | case3 r hlt =>
    rw [readexactly, if_neg hlt]
    exact r.take_consume _

theorem readuntil_bytes (r : Reader α) (sep : Separator α) :
    (r.readuntil sep).1.bytes ++ (r.readuntil sep).2.unread = r.unread := by
  cases hsep : sep.sorted with
  | nil => simp [readuntil, hsep, Outcome.bytes]
  | cons a as =>
    by_cases ha : a.length = 0
    · simp [readuntil, hsep, ha, Outcome.bytes]
    · have h := r.readuntil_eq sep hsep ha
      have hkind : (r.readuntil sep).1.kind = (expected r.limit sep.all r.unread).1 :=
        congrArg Prod.fst h
      have hunread : (r.readuntil sep).2.unread = (expected r.limit sep.all r.unread).2 :=
        congrArg Prod.snd h
      rw [← Outcome.bytes_kind, hkind, hunread]
      exact expected_bytes _ _ _

theorem call_bytes (r : Reader α) (c : Call α) : (r.call c).1.bytes ++ (r.call c).2.unread = r.unread := by
  cases c with
  | read n => exact r.read_bytes n
  | readexactly n => exact r.readexactly_bytes n
  | readuntil sep => exact r.readuntil_bytes sep

theorem calls_bytes (r : Reader α) (cs : List (Call α)) :
    (r.calls cs).1.flatMap Outcome.bytes ++ (r.calls cs).2.unread = r.unread := by
  induction cs generalizing r with
  | nil => rfl
  | cons c cs ih =>
    rw [calls, List.flatMap_cons, List.append_assoc, ih, call_bytes]

end Reader

/-- The outcome of `readuntil` is that of the unread stream, and over any calls the caller gets the
stream from its start. -/
theorem readuntil_chunkless :
    (∀ (r : Reader α) (sep : Separator α), sep.all ≠ [] → (∀ a ∈ sep.all, a ≠ []) →
      ((r.readuntil sep).1.kind, (r.readuntil sep).2.unread) =
        expected r.limit sep.all r.unread) ∧
    ∀ (limit : ℕ) (chunks : List (List α)) (hl : 0 < limit) (hc : ∀ c ∈ chunks, c ≠ [])
      (cs : List (Call α)),
      ((Reader.start limit chunks hl hc).calls cs).1.flatMap Outcome.bytes ++
        ((Reader.start limit chunks hl hc).calls cs).2.unread = chunks.flatten := by
  constructor
  · intro r sep hall hne
    cases hsep : sep.sorted with
    | nil =>
      have := sep.sorted_perm
      rw [hsep] at this
      exact absurd this.symm.eq_nil hall
    | cons a as =>
      have ha : a ∈ sep.all := sep.sorted_perm.mem_iff.mp (hsep ▸ List.mem_cons_self)
      exact r.readuntil_eq sep hsep fun h => hne a ha (List.length_eq_zero_iff.mp h)
  · intro limit chunks hl hc cs
    exact (Reader.start limit chunks hl hc).calls_bytes cs

end Search

/-- The separator `[3, 4]` comes in two chunks, and `[2, 3, 4, 5]` would end after it. -/
theorem readuntil_chunkless_split :
    let r := Reader.start 2 [[1, 2], [3], [4, 5]] (by decide) (by decide)
    let sep := Separator.tuple [[2, 3, 4, 5], [3, 4], [9]]
    ((r.readuntil sep).1.kind, (r.readuntil sep).2.unread) = (.data [1, 2, 3, 4], [5]) :=
  (readuntil_chunkless.1 (Reader.start 2 [[1, 2], [3], [4, 5]] (by decide) (by decide))
    (.tuple [[2, 3, 4, 5], [3, 4], [9]]) (by decide) (by decide)).trans (by decide)

end Stackweave.Aio.StreamReader
