import Mathlib.Data.List.Basic
import Mathlib.Data.Nat.Bitwise
import Mathlib.Tactic.Common

/-!
# Reading a DNS answer (`monkey/dns_proto.py`)

`parseDnsAnswer` reads the addresses out of a packet that anybody may have sent. Every
primitive it uses can raise as in the source: an index outside the packet, a slice that is
too short to unpack, a packed address of the wrong length. Slices are cut at the end of
the packet without an error.
-/

namespace Stackweave.Monkey.Dns

/-- The exceptions the primitives can raise. -/
inductive Exc
  | osError (message : String)
  | indexError
  | structError
  | valueError
  deriving DecidableEq

/-- An address, by the packed bytes that its text is printed from. -/
inductive Addr
  | inet (packed : List UInt8)
  | inet6 (packed : List UInt8)
  deriving DecidableEq

/-! ## The primitives -/

/-- `data[off]`. -/
def item (data : List UInt8) (off : ℕ) : Except Exc ℕ :=
  match data[off]? with
  | some b => .ok b.toNat
  | none => .error .indexError

/-- `data[i:j]`. -/
def slice (data : List UInt8) (i j : ℕ) : List UInt8 := (data.drop i).take (j - i)

/-- A big-endian half word. -/
def half (a b : UInt8) : ℕ := a.toNat * 256 + b.toNat

structure Header where
  txn : ℕ
  flags : ℕ
  qd : ℕ
  an : ℕ
  deriving DecidableEq

/-- `_struct.unpack("!HHHHHH", data)`, less the two counts that are not read. -/
def unpackHeader : List UInt8 → Except Exc Header
  | [t, t', f, f', q, q', a, a', _, _, _, _] =>
    .ok { txn := half t t', flags := half f f', qd := half q q', an := half a a' }
  | _ => .error .structError

/-- `_struct.unpack("!HHIH", data)`: the type and the length of the data. -/
def unpackRecord : List UInt8 → Except Exc (ℕ × ℕ)
  | [t, t', _, _, _, _, _, _, l, l'] => .ok (half t t', half l l')
  | _ => .error .structError

def inetNtoa (packed : List UInt8) : Except Exc Addr :=
  if packed.length = 4 then .ok (.inet packed)
  else .error (.osError "packed IP wrong length")

/-- `inet_ntop(AF_INET6, packed)`. -/
def inetNtop6 (packed : List UInt8) : Except Exc Addr :=
  if packed.length = 16 then .ok (.inet6 packed) else .error .valueError

/-! ## The parser -/

def qtypeA : ℕ := 1
def qtypeAAAA : ℕ := 28

def skipDnsName (data : List UInt8) (off : ℕ) : Except Exc ℕ :=
  if _h : data.length ≤ off then .error (.osError "DNS name overruns packet")
  else
    match item data off with
    | .error e => .error e
    | .ok ln =>
      if ln = 0 then .ok (off + 1)
      else if ln &&& 0xC0 = 0xC0 then .ok (off + 2)
      else skipDnsName data (off + (1 + ln))
termination_by data.length - off

/-- The loop over the questions. -/
def skipQuestions (data : List UInt8) : ℕ → ℕ → Except Exc ℕ
  | 0, off => .ok off
  | qd + 1, off => do
    let off ← skipDnsName data off
    skipQuestions data qd (off + 4)

/-- The loop over the answers. -/
def readAnswers (data : List UInt8) : ℕ → ℕ → List Addr → Except Exc (List Addr)
  | 0, _, addrs => .ok addrs
  | an + 1, off, addrs => do
    let off ← skipDnsName data off
    if data.length < off + 10 then
      return addrs
    let (rtype, rdlen) ← unpackRecord (slice data off (off + 10))
    let off := off + 10
    let rdata := slice data off (off + rdlen)
    let off := off + rdlen
    if rtype = qtypeA ∧ rdata.length = 4 then
      readAnswers data an off (addrs ++ [← inetNtoa rdata])
    else if rtype = qtypeAAAA ∧ rdata.length = 16 then
      readAnswers data an off (addrs ++ [← inetNtop6 rdata])
    else
      readAnswers data an off addrs

def parseDnsAnswer (data : List UInt8) (expectedTxn : ℕ) : Except Exc (List Addr) :=
  if data.length < 12 then .error (.osError "DNS response too short")
  else do
    let h ← unpackHeader (slice data 0 12)
    if h.txn ≠ expectedTxn then
      throw (.osError "DNS txn mismatch")
    if h.flags &&& 0x0200 ≠ 0 then
      throw (.osError "DNS response truncated (TC set)")
    let rcode := h.flags &&& 0xF
    if rcode = 3 then
      return []
    if rcode ≠ 0 then
      throw (.osError ("DNS server rcode=" ++ toString rcode))
    let off ← skipQuestions data h.qd 12
    readAnswers data h.an off []

/-! ## The records of a packet -/

/-- An answer record whose name and fixed part lie inside the packet: its type, its
RDLENGTH and where its RDATA begins. -/
structure Record where
  rtype : ℕ
  rdlength : ℕ
  start : ℕ
  deriving DecidableEq

/-- The first `an` answer records from `off` on, as far as there are any. -/
def records (data : List UInt8) : ℕ → ℕ → List Record
  | 0, _ => []
  | an + 1, off =>
    match skipDnsName data off with
    | .error _ => []
    | .ok off =>
      match unpackRecord (slice data off (off + 10)) with
      | .error _ => []
      | .ok (rtype, rdlength) =>
        { rtype, rdlength, start := off + 10 } :: records data an (off + 10 + rdlength)

/-- The answer records of the packet. -/
def answers (data : List UInt8) : List Record :=
  match unpackHeader (slice data 0 12) with
  | .error _ => []
  | .ok h =>
    match skipQuestions data h.qd 12 with
    | .error _ => []
    | .ok off => records data h.an off

/-- The address that the record holds: its type and RDLENGTH are right and its RDATA lies
completely inside the packet. -/
def Record.address (data : List UInt8) (r : Record) : Option Addr :=
  if data.length < r.start + r.rdlength then none
  else if r.rtype = qtypeA ∧ r.rdlength = 4 then some (.inet (slice data r.start (r.start + 4)))
  else if r.rtype = qtypeAAAA ∧ r.rdlength = 16 then
    some (.inet6 (slice data r.start (r.start + 16)))
  else none

/-- The RDATA runs past the end of the packet, which leaves just as much of it as an
address of the record's type has. -/
def Record.Cut (data : List UInt8) (r : Record) : Prop :=
  data.length < r.start + r.rdlength ∧
    (r.rtype = qtypeA ∧ r.start + 4 = data.length ∨
      r.rtype = qtypeAAAA ∧ r.start + 16 = data.length)

/-- The header is accepted: it is of an answer to the request that reports no error. -/
structure Accepts (data : List UInt8) (txn : ℕ) (h : Header) : Prop where
  header : unpackHeader (slice data 0 12) = .ok h
  same : h.txn = txn
  full : h.flags &&& 0x0200 = 0
  noError : h.flags &&& 0xF = 0

/-- All the records that an accepted header announces have their fixed part inside. -/
def Answers (data : List UInt8) (txn : ℕ) : Prop :=
  ∃ h, Accepts data txn h ∧ (answers data).length = h.an

/-- The addresses of a returned list are those of complete records, each of another one,
and nothing but `OSError` is raised. -/
structure Sound (data : List UInt8) (txn : ℕ) : Prop where
  complete : ∀ addrs, parseDnsAnswer data txn = .ok addrs →
    addrs.Sublist ((answers data).filterMap (Record.address data))
  raises : ∀ e, parseDnsAnswer data txn = .error e → ∃ message, e = .osError message

/-! ## What the primitives raise -/

section

variable {data : List UInt8} {off : ℕ} {e : Exc}

theorem length_slice (data : List UInt8) (i j : ℕ) :
    (slice data i j).length = min (j - i) (data.length - i) := by
  simp [slice]

theorem item_ok (h : off < data.length) : ∃ ln, item data off = .ok ln :=
  ⟨data[off].toNat, by simp only [item, List.getElem?_eq_getElem h]⟩

theorem unpackHeader_ok (bs : List UInt8) (h : bs.length = 12) : ∃ hdr, unpackHeader bs = .ok hdr :=
  match bs, h with
  | [_, _, _, _, _, _, _, _, _, _, _, _], _ => ⟨_, rfl⟩

theorem unpackRecord_ok (bs : List UInt8) (h : bs.length = 10) : ∃ x, unpackRecord bs = .ok x :=
  match bs, h with
  | [_, _, _, _, _, _, _, _, _, _], _ => ⟨_, rfl⟩

theorem unpackRecord_short (bs : List UInt8) (h : bs.length < 10) :
    unpackRecord bs = .error .structError := by
  unfold unpackRecord
  split
  · simp at h
  · rfl

theorem skipDnsName_of_le (h : data.length ≤ off) :
    skipDnsName data off = .error (.osError "DNS name overruns packet") := by
  unfold skipDnsName
  rw [dif_pos h]

theorem skipDnsName_raises (h : skipDnsName data off = .error e) : ∃ m, e = .osError m := by
  fun_induction skipDnsName data off with
  | case1 off hle =>
    cases h
    exact ⟨_, rfl⟩
  | case2 off hlt e' herr =>
    obtain ⟨ln, hln⟩ := item_ok (Nat.lt_of_not_le hlt)
    exact absurd (herr.symm.trans hln) (by rintro ⟨⟩)
  | case3 => cases h
  | case4 => cases h
  | case5 off _ ln _ _ _ ih => exact ih h

theorem skipQuestions_raises {qd : ℕ} (h : skipQuestions data qd off = .error e) :
    ∃ m, e = .osError m := by
  induction qd generalizing off with
  | zero => cases h
  | succ qd ih =>
    simp only [skipQuestions] at h
    cases hskip : skipDnsName data off with
    | error e' =>
      rw [hskip] at h
      cases h
      exact skipDnsName_raises hskip
    | ok off' =>
      rw [hskip] at h
      exact ih h

end

/-! ## The loop over the answers -/

/-- What the loop takes from a record: the length that it looks at is that of the slice. -/
def Record.taken (data : List UInt8) (r : Record) : Option Addr :=
  if r.rtype = qtypeA ∧ (slice data r.start (r.start + r.rdlength)).length = 4 then
    some (.inet (slice data r.start (r.start + r.rdlength)))
  else if r.rtype = qtypeAAAA ∧ (slice data r.start (r.start + r.rdlength)).length = 16 then
    some (.inet6 (slice data r.start (r.start + r.rdlength)))
  else none

section

variable {data : List UInt8} {n off : ℕ} {addrs out : List Addr} {r : Record}

theorem taken_eq_address (h : ¬ r.Cut data) : r.taken data = r.address data := by
  have hlen := length_slice data r.start (r.start + r.rdlength)
  unfold Record.taken Record.address
  by_cases hin : data.length < r.start + r.rdlength
  · rw [if_pos hin, if_neg, if_neg]
    · rintro ⟨ht, h16⟩
      exact h ⟨hin, .inr ⟨ht, by omega⟩⟩
    · rintro ⟨ht, h4⟩
      exact h ⟨hin, .inl ⟨ht, by omega⟩⟩
  · have hfull : (slice data r.start (r.start + r.rdlength)).length = r.rdlength := by omega
    rw [if_neg hin, hfull]
    split
    · next hA => rw [hA.2]
    · split
      · next hA => rw [hA.2]
      · rfl

theorem taken_of_cut (h : r.Cut data) : (∃ a, r.taken data = some a) ∧ r.address data = none := by
  have hlen := length_slice data r.start (r.start + r.rdlength)
  obtain ⟨hin, hcut⟩ := h
  refine ⟨?_, if_pos hin⟩
  unfold Record.taken
  rcases hcut with ⟨ht, h4⟩ | ⟨ht, h16⟩
  · exact ⟨_, if_pos ⟨ht, by omega⟩⟩
  · have hne : ¬ (r.rtype = qtypeA ∧ (slice data r.start (r.start + r.rdlength)).length = 4) := by
      rw [ht]
      exact fun h => absurd h.1 (by decide)
    rw [if_neg hne]
    exact ⟨_, if_pos ⟨ht, by omega⟩⟩

/-- One round of the loop: the name overruns, the fixed part does, or a record is read. -/
theorem readAnswers_succ (data : List UInt8) (n off : ℕ) (addrs : List Addr) :
    (records data (n + 1) off = [] ∧
      ((∃ m, readAnswers data (n + 1) off addrs = .error (.osError m)) ∨
        readAnswers data (n + 1) off addrs = .ok addrs)) ∨
    ∃ r : Record, records data (n + 1) off = r :: records data n (r.start + r.rdlength) ∧
      readAnswers data (n + 1) off addrs =
        readAnswers data n (r.start + r.rdlength) (addrs ++ (r.taken data).toList) := by
  cases hskip : skipDnsName data off with
  | error e =>
    obtain ⟨m, rfl⟩ := skipDnsName_raises hskip
    refine .inl ⟨by simp only [records, hskip], .inl ⟨m, ?_⟩⟩
    simp only [readAnswers, hskip]
    rfl
  | ok off' =>
    have hlen := length_slice data off' (off' + 10)
    by_cases hshort : data.length < off' + 10
    · refine .inl ⟨?_, .inr ?_⟩
      · simp only [records, hskip, unpackRecord_short (slice data off' (off' + 10)) (by omega)]
      · simp only [readAnswers, hskip]
        exact if_pos hshort
    · obtain ⟨⟨rtype, rdlen⟩, hun⟩ := unpackRecord_ok (slice data off' (off' + 10)) (by omega)
      refine .inr ⟨⟨rtype, rdlen, off' + 10⟩, by simp only [records, hskip, hun], ?_⟩
      simp only [readAnswers, hskip]
      show (if data.length < off' + 10 then _ else _) = _
      rw [if_neg hshort, hun]
      show (if rtype = qtypeA ∧ _ then _ else _) = _
      unfold Record.taken
      split
      · next hA =>
        rw [inetNtoa, if_pos hA.2]
        rfl
      · split
        · next hA =>
          rw [inetNtop6, if_pos hA.2]
          rfl
        · simp

/-- Nothing is read past the end of the packet. -/
theorem answers_of_le (n : ℕ) (addrs : List Addr) (h : data.length ≤ off) :
    records data (n + 1) off = [] ∧
      readAnswers data (n + 1) off addrs = .error (.osError "DNS name overruns packet") := by
  have hskip := skipDnsName_of_le h
  refine ⟨by simp only [records, hskip], ?_⟩
  simp only [readAnswers, hskip]
  rfl

theorem readAnswers_raises {e : Exc} (h : readAnswers data n off addrs = .error e) :
    ∃ m, e = .osError m := by
  induction n generalizing off addrs with
  | zero => cases h
  | succ n ih =>
    rcases readAnswers_succ data n off addrs with ⟨-, ⟨m, hm⟩ | hok⟩ | ⟨r, -, hread⟩
    · cases hm.symm.trans h
      exact ⟨m, rfl⟩
    · exact absurd (hok.symm.trans h) (by rintro ⟨⟩)
    · exact ih (hread.symm.trans h)

/-- All the records are there, and one of them is cut. -/
def CutAt (data : List UInt8) (n off : ℕ) : Prop :=
  (records data n off).length = n ∧ ∃ r ∈ records data n off, r.Cut data

/-- A cut record ends the packet: it is the last one announced, or the next name
overruns. -/
theorem readAnswers_eq (h : readAnswers data n off addrs = .ok out) (hcut : ¬ CutAt data n off) :
    out = addrs ++ (records data n off).filterMap (Record.address data) := by
  induction n generalizing off addrs with
  | zero =>
    cases h
    simp [records]
  | succ n ih =>
    rcases readAnswers_succ data n off addrs with ⟨hnil, ⟨m, hm⟩ | hok⟩ | ⟨r, hrec, hread⟩
    · exact absurd (hm.symm.trans h) (by rintro ⟨⟩)
    · cases hok.symm.trans h
      simp [hnil]
    · have hr : ¬ r.Cut data := by
        intro hr
        cases n with
        | zero => exact hcut ⟨by rw [hrec]; rfl, r, by simp [hrec], hr⟩
        | succ k =>
          have hov := (answers_of_le k (addrs ++ (r.taken data).toList) (Nat.le_of_lt hr.1)).2
          exact absurd (hov.symm.trans (hread.symm.trans h)) (by rintro ⟨⟩)
      have hrest : ¬ CutAt data n (r.start + r.rdlength) := by
        rintro ⟨hlen, x, hx, hxcut⟩
        exact hcut ⟨by rw [hrec, List.length_cons, hlen], x, by simp [hrec, hx], hxcut⟩
      rw [ih (hread.symm.trans h) hrest, hrec, taken_eq_address hr, List.append_assoc]
      cases hra : r.address data with
      | none => simp [hra]
      | some a => simp [hra]

theorem readAnswers_of_cut (addrs : List Addr) (hcut : CutAt data n off) :
    ∃ out, readAnswers data n off addrs = .ok out ∧
      addrs.length + ((records data n off).filterMap (Record.address data)).length < out.length := by
  induction n generalizing off addrs with
  | zero =>
    obtain ⟨-, r, hr, -⟩ := hcut
    cases hr
  | succ n ih =>
    obtain ⟨hlen, x, hx, hxcut⟩ := hcut
    rcases readAnswers_succ data n off addrs with ⟨hnil, -⟩ | ⟨r, hrec, hread⟩
    · rw [hnil] at hx
      cases hx
    · rw [hrec, List.length_cons, Nat.add_right_cancel_iff] at hlen
      rw [hread, hrec]
      by_cases hr : r.Cut data
      · obtain ⟨⟨a, ha⟩, hnone⟩ := taken_of_cut hr
        cases n with
        | zero => exact ⟨_, rfl, by simp [records, ha, hnone]⟩
        | succ k =>
          rw [(answers_of_le k [] (Nat.le_of_lt hr.1)).1] at hlen
          cases hlen
      · have hmem : x ∈ records data n (r.start + r.rdlength) := by
          rw [hrec] at hx
          rcases List.mem_cons.mp hx with rfl | hx
          · exact absurd hxcut hr
          · exact hx
        obtain ⟨out, hout, hlt⟩ := ih (addrs ++ (r.taken data).toList) ⟨hlen, x, hmem, hxcut⟩
        refine ⟨out, hout, lt_of_le_of_lt ?_ hlt⟩
        rw [taken_eq_address hr]
        cases hra : r.address data with
        | none => simp [hra]
        | some a =>
          simp [hra]
          omega

end

/-! ## The whole packet -/

section

variable {data : List UInt8} {txn : ℕ}

theorem length_of_unpackHeader {bs : List UInt8} {h : Header} (hun : unpackHeader bs = .ok h) :
    bs.length = 12 := by
  unfold unpackHeader at hun
  split at hun
  · rfl
  · cases hun

theorem parse_of_accepts {h : Header} (ha : Accepts data txn h) :
    parseDnsAnswer data txn =
      (skipQuestions data h.qd 12).bind fun off => readAnswers data h.an off [] := by
  have hlen := length_of_unpackHeader ha.header
  rw [length_slice] at hlen
  simp only [parseDnsAnswer, if_neg (show ¬ data.length < 12 by omega), ha.header]
  show (if h.txn ≠ txn then _ else _) = _
  rw [if_neg (not_not.mpr ha.same)]
  show (if h.flags &&& 0x0200 ≠ 0 then _ else _) = _
  rw [if_neg (not_not.mpr ha.full)]
  show (if h.flags &&& 0xF = 3 then _ else _) = _
  rw [ha.noError]
  rfl

/-- What else the parser does. -/
theorem parse_of_not_accepts (ha : ∀ h, ¬ Accepts data txn h) :
    (∃ m, parseDnsAnswer data txn = .error (.osError m)) ∨ parseDnsAnswer data txn = .ok [] := by
  unfold parseDnsAnswer
  by_cases hlen : data.length < 12
  · exact .inl ⟨_, if_pos hlen⟩
  · obtain ⟨h, hun⟩ := unpackHeader_ok (slice data 0 12) (by rw [length_slice]; omega)
    rw [if_neg hlen, hun]
    show (∃ m, (if h.txn ≠ txn then _ else _) = _) ∨ (if h.txn ≠ txn then _ else _) = _
    by_cases htxn : h.txn ≠ txn
    · exact .inl ⟨_, if_pos htxn⟩
    rw [if_neg htxn]
    show (∃ m, (if h.flags &&& 0x0200 ≠ 0 then _ else _) = _) ∨
      (if h.flags &&& 0x0200 ≠ 0 then _ else _) = _
    by_cases htc : h.flags &&& 0x0200 ≠ 0
    · exact .inl ⟨_, if_pos htc⟩
    rw [if_neg htc]
    show (∃ m, (if h.flags &&& 0xF = 3 then _ else _) = _) ∨
      (if h.flags &&& 0xF = 3 then _ else _) = _
    by_cases hnx : h.flags &&& 0xF = 3
    · exact .inr (if_pos hnx)
    rw [if_neg hnx]
    show (∃ m, (if h.flags &&& 0xF ≠ 0 then _ else _) = _) ∨
      (if h.flags &&& 0xF ≠ 0 then _ else _) = _
    by_cases hrc : h.flags &&& 0xF ≠ 0
    · exact .inl ⟨_, if_pos hrc⟩
    · exact absurd ⟨hun, not_not.mp htxn, not_not.mp htc, not_not.mp hrc⟩ (ha h)

theorem parse_raises {e : Exc} (h : parseDnsAnswer data txn = .error e) : ∃ m, e = .osError m := by
  by_cases ha : ∃ hdr, Accepts data txn hdr
  · obtain ⟨hdr, ha⟩ := ha
    rw [parse_of_accepts ha] at h
    cases hq : skipQuestions data hdr.qd 12 with
    | error e' =>
      rw [hq] at h
      cases h
      exact skipQuestions_raises hq
    | ok off =>
      rw [hq] at h
      exact readAnswers_raises h
  · rcases parse_of_not_accepts fun hdr hx => ha ⟨hdr, hx⟩ with ⟨m, hm⟩ | hok
    · cases hm.symm.trans h
      exact ⟨m, rfl⟩
    · exact absurd (hok.symm.trans h) (by rintro ⟨⟩)

theorem answers_of_accepts {h : Header} {off : ℕ} (ha : Accepts data txn h)
    (hq : skipQuestions data h.qd 12 = .ok off) : answers data = records data h.an off := by
  simp only [answers, ha.header, hq]

/-- **Addresses are read from complete records** exactly when no record of an accepted
answer is cut down to the size of an address by the end of the packet. -/
theorem sound_iff (data : List UInt8) (txn : ℕ) :
    Sound data txn ↔ ¬ (Answers data txn ∧ ∃ r ∈ answers data, r.Cut data) := by
  constructor
  · rintro hs ⟨⟨h, ha, hlen⟩, r, hr, hcut⟩
    cases hq : skipQuestions data h.qd 12 with
    | error e =>
      simp only [answers, ha.header, hq] at hr
      cases hr
    | ok off =>
      rw [answers_of_accepts ha hq] at hlen hr
      obtain ⟨out, hout, hlt⟩ := readAnswers_of_cut [] ⟨hlen, r, hr, hcut⟩
      have hparse : parseDnsAnswer data txn = .ok out := by
        rw [parse_of_accepts ha, hq]
        exact hout
      have hle := (hs.complete out hparse).length_le
      rw [answers_of_accepts ha hq] at hle
      simp only [List.length_nil, Nat.zero_add] at hlt
      omega
  · intro hnot
    refine ⟨fun addrs h => ?_, fun e h => parse_raises h⟩
    by_cases ha : ∃ hdr, Accepts data txn hdr
    · obtain ⟨hdr, ha⟩ := ha
      rw [parse_of_accepts ha] at h
      cases hq : skipQuestions data hdr.qd 12 with
      | error e =>
        rw [hq] at h
        cases h
      | ok off =>
        rw [hq] at h
        have heq := answers_of_accepts ha hq
        have hcut : ¬ CutAt data hdr.an off := by
          rintro ⟨hlen, hr⟩
          rw [← heq] at hlen hr
          exact hnot ⟨⟨hdr, ha, hlen⟩, hr⟩
        rw [readAnswers_eq h hcut, heq, List.nil_append]
    · rcases parse_of_not_accepts fun hdr hx => ha ⟨hdr, hx⟩ with ⟨m, hm⟩ | hok
      · exact absurd (hm.symm.trans h) (by rintro ⟨⟩)
      · cases hok.symm.trans h
        exact List.nil_sublist _

end

/-- One A record with an RDLENGTH of 16 and four bytes of RDATA. -/
def cutPacket : List UInt8 :=
  [0, 7, 0x81, 0x80, 0, 0, 0, 1, 0, 0, 0, 0,
    0, 0, 1, 0, 1, 0, 0, 0, 60, 0, 16, 10, 0, 0, 1]

theorem cutPacket_address :
    parseDnsAnswer cutPacket 7 = .ok [.inet [10, 0, 0, 1]] ∧
      answers cutPacket = [{ rtype := 1, rdlength := 16, start := 23 }] ∧ cutPacket.length = 27 ∧
      ¬ Sound cutPacket 7 := by
  have hparse : parseDnsAnswer cutPacket 7 = .ok [.inet [10, 0, 0, 1]] := by decide +kernel
  have hnone : (answers cutPacket).filterMap (Record.address cutPacket) = [] := by decide +kernel
  refine ⟨hparse, by decide +kernel, rfl, fun hs => ?_⟩
  have hsub := hs.complete _ hparse
  rw [hnone] at hsub
  cases hsub

end Stackweave.Monkey.Dns
