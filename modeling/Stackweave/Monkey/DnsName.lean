import Stackweave.Monkey.DnsQuery

/-!
# Names on the wire (`monkey/dns_proto.py`)

`_build_query` on any host name: bytes are taken as they are, ASCII text as its bytes, and
other text goes through the `idna` codec. The codec cuts the name at its four dots, keeps
ASCII labels, turns the others into their ACE form and refuses a label that comes out empty or
with more than 63 bytes; only the ACE form of a single label (nameprep and punycode) is a
parameter, `ace`. What the built packet is read back with is `skipDnsName`.
-/

namespace Stackweave.Monkey.DnsName

open Dns DnsQuery

/-- A host name; text is a list of code points. -/
inductive Host
  | bytes (b : List UInt8)
  | text (t : List ℕ)

/-! ## The codecs -/

/-- `t.encode("ascii")` -/
def ascii (t : List ℕ) : Option (List UInt8) :=
  if t.all (· < 128) then some (t.map UInt8.ofNat) else none

/-- The characters the `idna` codec takes for dots. -/
def isDot (c : ℕ) : Bool := c = 0x2E || c = 0x3002 || c = 0xFF0E || c = 0xFF61

/-- `encodings.idna.ToASCII`; its `UnicodeError` is a `ValueError`. -/
def toAscii (ace : List ℕ → Except Exc (List UInt8)) (label : List ℕ) : Except Exc (List UInt8) :=
  match ascii label with
  | some b => if 0 < b.length ∧ b.length < 64 then .ok b else .error .valueError
  | none =>
    match ace label with
    | .error e => .error e
    | .ok b => if 0 < b.length ∧ b.length < 64 then .ok b else .error .valueError

/-- The labels, joined by dots. -/
def joinAscii (ace : List ℕ → Except Exc (List UInt8)) : List (List ℕ) → Except Exc (List UInt8)
  | [] => .ok []
  | [label] => toAscii ace label
  | label :: labels => do
    let b ← toAscii ace label
    let rest ← joinAscii ace labels
    return b ++ dot :: rest

/-- `t.encode("idna")` for text that is not ASCII: a dot at the end stays there. -/
def idna (ace : List ℕ → Except Exc (List UInt8)) (t : List ℕ) : Except Exc (List UInt8) :=
  let labels := t.splitOnP isDot
  if labels.getLast? = some [] then do
    let b ← joinAscii ace labels.dropLast
    return b ++ [dot]
  else joinAscii ace labels

def encodeQueryName (ace : List ℕ → Except Exc (List UInt8)) : Host → Except Exc (List UInt8)
  | .bytes b => .ok b
  | .text t =>
    match ascii t with
    | some b => .ok b
    | none => idna ace t

/-- `_build_query`, with its random id -/
def buildQueryOf (ace : List ℕ → Except Exc (List UInt8)) (txn : ℕ) (name : Host) (qtype : ℕ) :
    Except Exc (List UInt8) := do
  let wire ← encodeQueryName ace name
  buildQuery txn wire qtype

/-! ## Reading a name back -/

/-- The labels of a name that ends with these bytes. -/
def decodeLabels : List UInt8 → Option (List (List UInt8))
  | [] => none
  | b :: rest =>
    if b = 0 then if rest = [] then some [] else none
    else if rest.length < b.toNat then none
    else (decodeLabels (rest.drop b.toNat)).map (rest.take b.toNat :: ·)
termination_by l => l.length
decreasing_by
  simp only [List.length_drop, List.length_cons]
  omega

/-- The non-empty labels of a name in its wire form. -/
def labels (wire : List UInt8) : List (List UInt8) := (wire.splitOn dot).filter (· ≠ [])

/-- The end of every query: the class and the OPT record. -/
def tail : List UInt8 := pack 1 ++ [0] ++ pack 41 ++ pack 4096 ++ [0, 0, 0, 0] ++ pack 0

theorem decodeLabels_encode {labels : List (List UInt8)}
    (h : ∀ lbl ∈ labels, lbl ≠ [] ∧ lbl.length ≤ 63) :
    decodeLabels (encode labels ++ [0]) = some labels := by
  induction labels with
  | nil =>
    unfold decodeLabels
    simp [encode]
  | cons lbl labels ih =>
    obtain ⟨hne, hlen⟩ := h lbl List.mem_cons_self
    have hpos : lbl.length ≠ 0 := fun hx => hne (List.length_eq_zero_iff.mp hx)
    have hbyte : (UInt8.ofNat lbl.length).toNat = lbl.length := by
      rw [UInt8.toNat_ofNat']
      omega
    have hnz : UInt8.ofNat lbl.length ≠ 0 := by
      intro hz
      rw [hz] at hbyte
      exact hpos hbyte.symm
    have hcons : encode (lbl :: labels) ++ [0] =
        UInt8.ofNat lbl.length :: (lbl ++ (encode labels ++ [0])) := by
      simp [encode]
    rw [hcons]
    unfold decodeLabels
    rw [if_neg hnz, hbyte, if_neg (by simp), List.drop_left, List.take_left,
      ih fun l hl => h l (List.mem_cons_of_mem _ hl)]
    rfl

/-- What is built for a name of short labels. -/
theorem buildQuery_ok {txn qtype : ℕ} {wire packet : List UInt8}
    (h : buildQuery txn wire qtype = .ok packet) :
    (∀ lbl ∈ labels wire, lbl ≠ [] ∧ lbl.length ≤ 63) ∧
      ∃ header : List UInt8, header.length = 12 ∧
        packet = header ++ encode (labels wire) ++ 0 :: (pack qtype ++ tail) := by
  unfold buildQuery at h
  split at h
  case isTrue => cases h
  case isFalse hshort =>
    cases h
    refine ⟨fun lbl hl => ?_, pack txn ++ pack 0x0100 ++ pack 1 ++ pack 0 ++ pack 0 ++ pack 1, rfl, ?_⟩
    · obtain ⟨hmem, hne⟩ := List.mem_filter.mp hl
      refine ⟨by simpa using hne, ?_⟩
      by_contra hlong
      exact hshort (List.any_eq_true.mpr ⟨lbl, hmem, by simpa using hlong⟩)
    · simp only [question, encode, labels, tail, List.append_assoc, List.cons_append, List.nil_append]

theorem buildQuery_long {txn qtype : ℕ} {wire : List UInt8}
    (h : ∃ lbl ∈ wire.splitOn dot, 63 < lbl.length) :
    buildQuery txn wire qtype = .error (.osError "DNS label too long") := by
  obtain ⟨lbl, hmem, hlong⟩ := h
  refine if_pos (List.any_eq_true.mpr ⟨lbl, hmem, by simpa using hlong⟩)

/-- For every name that is accepted and whatever follows the packet: the name at offset 12 is
skipped to the type, and its bytes decode to the labels of the encoded name. A name whose wire
form has a label of more than 63 bytes raises `OSError`; what the codec refuses raises as it
does. -/
theorem query_name_round_trip (ace : List ℕ → Except Exc (List UInt8)) (txn : ℕ) (name : Host)
    (qtype : ℕ) :
    (∀ packet, buildQueryOf ace txn name qtype = .ok packet →
      ∃ wire off, encodeQueryName ace name = .ok wire ∧
        (∀ rest, skipDnsName (packet ++ rest) 12 = .ok off) ∧
        packet.drop off = pack qtype ++ tail ∧
        decodeLabels (slice packet 12 off) = some (labels wire)) ∧
    (∀ wire, encodeQueryName ace name = .ok wire → (∃ lbl ∈ wire.splitOn dot, 63 < lbl.length) →
      buildQueryOf ace txn name qtype = .error (.osError "DNS label too long")) ∧
    (∀ e, encodeQueryName ace name = .error e → buildQueryOf ace txn name qtype = .error e) := by
  refine ⟨fun packet h => ?_, fun wire hw hlong => ?_, fun e he => ?_⟩
  · unfold buildQueryOf at h
    cases hw : encodeQueryName ace name with
    | error e =>
      rw [hw] at h
      cases h
    | ok wire =>
      rw [hw] at h
      obtain ⟨hlabels, header, hheader, rfl⟩ := buildQuery_ok h
      have hpre : (header ++ encode (labels wire)).length + 1 =
          12 + (encode (labels wire)).length + 1 := by
        rw [List.length_append, hheader]
      refine ⟨wire, 12 + (encode (labels wire)).length + 1, rfl, fun rest => ?_, ?_, ?_⟩
      · have hskip := skipDnsName_encode header (pack qtype ++ tail ++ rest) hlabels
        rw [hheader] at hskip
        rw [List.append_assoc, List.cons_append]
        exact hskip
      · rw [← hpre, List.drop_append]
        simp
      · have hname : slice (header ++ encode (labels wire) ++ 0 :: (pack qtype ++ tail)) 12
            (12 + (encode (labels wire)).length + 1) = encode (labels wire) ++ [0] := by
          have hcut : encode (labels wire) ++ 0 :: (pack qtype ++ tail) =
              (encode (labels wire) ++ [0]) ++ (pack qtype ++ tail) := by
            rw [List.append_assoc]
            rfl
          have hlen : 12 + (encode (labels wire)).length + 1 - 12 =
              (encode (labels wire) ++ [0]).length := by
            rw [List.length_append, List.length_singleton]
            omega
          unfold slice
          rw [hlen, List.append_assoc, ← hheader, List.drop_left, hcut, List.take_left]
        rw [hname]
        exact decodeLabels_encode hlabels
  · unfold buildQueryOf
    rw [hw]
    exact buildQuery_long hlong
  · unfold buildQueryOf
    rw [he]
    rfl

/-- `a..bc`, followed by three bytes. -/
theorem query_name_round_trip_dots :
    ∃ packet off, buildQueryOf (fun _ => .error .valueError) 7 (.bytes [97, 46, 46, 98, 99]) 1 =
        .ok packet ∧ skipDnsName (packet ++ [1, 2, 3]) 12 = .ok off ∧
      decodeLabels (slice packet 12 off) = some (labels [97, 46, 46, 98, 99]) ∧
      labels [97, 46, 46, 98, 99] = [[97], [98, 99]] := by
  obtain ⟨packet, hpacket⟩ : ∃ packet, buildQueryOf (fun _ => .error .valueError) 7
      (.bytes [97, 46, 46, 98, 99]) 1 = .ok packet := ⟨_, rfl⟩
  obtain ⟨wire, off, hwire, hskip, -, hdecode⟩ := (query_name_round_trip _ 7 _ 1).1 packet hpacket
  cases hwire
  exact ⟨packet, off, hpacket, hskip _, hdecode, by decide⟩

/-- 64 times `a`, a dot and `é`. -/
def longName : List ℕ := List.replicate 64 97 ++ [0x2E, 0xE9]

/-- The name has a label of 64 bytes, but not being ASCII it goes to the codec, which raises
its `UnicodeError`. -/
theorem longName_valueError :
    longName.splitOnP isDot = [List.replicate 64 97, [0xE9]] ∧
      ∀ (ace : List ℕ → Except Exc (List UInt8)) (txn qtype : ℕ),
        buildQueryOf ace txn (.text longName) qtype = .error .valueError ∧
        ∀ message, buildQueryOf ace txn (.text longName) qtype ≠ .error (.osError message) := by
  have hsplit : longName.splitOnP isDot = [List.replicate 64 97, [0xE9]] := by decide
  refine ⟨hsplit, fun ace txn qtype => ?_⟩
  have hascii : ascii longName = none := by decide
  have hlast : ([List.replicate 64 97, [0xE9]] : List (List ℕ)).getLast? ≠ some [] := by decide
  have hfirst : toAscii ace (List.replicate 64 97) = .error .valueError := by
    have hlabel : ascii (List.replicate 64 97) = some (List.replicate 64 97) := by decide
    simp only [toAscii, hlabel, List.length_replicate]
    rfl
  have herror : buildQueryOf ace txn (.text longName) qtype = .error .valueError := by
    simp only [buildQueryOf, encodeQueryName, hascii, idna, hsplit, if_neg hlast, joinAscii, hfirst]
    rfl
  refine ⟨herror, fun message h => ?_⟩
  rw [herror] at h
  cases h

end Stackweave.Monkey.DnsName
