import Mathlib.Data.List.DropRight
import Stackweave.Monkey.Dns

/-!
# Queries and lookups (`monkey/dns.py`, `monkey/dns_proto.py`)

`queryNameserver` reads the first datagram that comes to the socket of the query, whoever sent it.
`resolveQtype` tries the candidate names and the nameservers in turn, with a cache before and libc
behind them, and `resolveDual` labels what it gets with a family. A lookup has its random ids, the
datagrams that arrive at each of its sockets, the clock and the answer of libc in its `Env`, and
the queries it has made in a log.
-/

namespace Stackweave.Monkey.DnsQuery

open Dns

inductive Family
  | inet
  | inet6
  deriving DecidableEq

def family : Addr → Family
  | .inet _ => .inet
  | .inet6 _ => .inet6

/-- The `af` of a query type. -/
def familyOf (qtype : ℕ) : Family := if qtype = qtypeA then .inet else .inet6

structure Endpoint where
  addr : Addr
  port : ℕ
  deriving DecidableEq

structure Datagram where
  sender : Endpoint
  data : List UInt8
  deriving DecidableEq

/-- `s.recvfrom(4096)` -/
def received (d : Datagram) : List UInt8 := d.data.take 4096

def dnsPort : ℕ := 53

/-- A line of `resolv.conf` may name anything. -/
inductive Server
  | ip (a : Addr)
  | other (text : String)

/-! ## One query -/

/-- `_struct.pack("!H", n)` -/
def pack (n : ℕ) : List UInt8 := [UInt8.ofNat (n / 256), UInt8.ofNat (n % 256)]

def dot : UInt8 := 46

/-- The question of `_build_query`; the name is in its wire form, as bytes. -/
def question (name : List UInt8) (qtype : ℕ) : List UInt8 :=
  ((name.splitOn dot).filter (· ≠ [])).flatMap (fun lbl => UInt8.ofNat lbl.length :: lbl) ++ [0] ++
    pack qtype ++ pack 1

def buildQuery (txn : ℕ) (name : List UInt8) (qtype : ℕ) : Except Exc (List UInt8) :=
  if (name.splitOn dot).any (fun lbl => 63 < lbl.length) then .error (.osError "DNS label too long")
  else
    .ok (pack txn ++ pack 0x0100 ++ pack 1 ++ pack 0 ++ pack 0 ++ pack 1 ++ question name qtype ++
      [0] ++ pack 41 ++ pack 4096 ++ [0, 0, 0, 0] ++ pack 0)

def queryNameserver (txn : ℕ) (ns : Server) (arrivals : List Datagram) : Except Exc (List Addr) :=
  match ns with
  | .other text => .error (.osError ("non-IP nameserver: " ++ text))
  | .ip _ =>
    match arrivals with
    | [] => .error (.osError "timed out")
    | d :: _ => parseDnsAnswer (received d) txn

/-- A query that was sent, and what arrived at its socket. -/
structure Query where
  ns : Addr
  packet : List UInt8
  txn : ℕ
  qtype : ℕ
  arrivals : List Datagram
  deriving DecidableEq

/-! ## A lookup -/

structure Config where
  resolvers : List Server
  search : List (List UInt8)
  ndots : ℕ

def candidateNames (c : Config) (name : List UInt8) : List (List UInt8) :=
  if c.search = [] ∨ name.getLast? = some dot then [name]
  else
    (if c.ndots ≤ name.count dot then [name] else []) ++
      c.search.map (fun suffix => name ++ [dot] ++ suffix.rdropWhile (· = dot)) ++
      (if c.ndots ≤ name.count dot then [] else [name])

structure Env where
  now : ℕ
  txn : ℕ → UInt16
  replies : ℕ → ℕ → List Datagram
  libc : List Addr

/-- `_DNS_CACHE_TTL`, in milliseconds. -/
def dnsCacheTtl : ℕ := 60000

/-- `_dns_result_cache`: the addresses and when they expire. -/
abbrev Cache := List UInt8 × ℕ → Option (List Addr × ℕ)

def lower (name : List UInt8) : List UInt8 :=
  name.map fun b => if 65 ≤ b ∧ b ≤ 90 then b + 32 else b

/-- What a socket of the query saw. -/
def Server.sent (packet : List UInt8) (txn qtype : ℕ) (arrivals : List Datagram) :
    Server → List Query
  | .ip ns => [{ ns, packet, txn, qtype, arrivals }]
  | .other _ => []

/-- The loop over the nameservers: the first one that answers, and the last error. -/
def askServers (packet : List UInt8) (txn qtype : ℕ) (replies : ℕ → List Datagram) :
    ℕ → List Server → Option Exc → Except Exc (Option (List Addr)) × Option Exc × List Query
  | _, [], last => (.ok none, last, [])
  | j, ns :: rest, last =>
    let log := ns.sent packet txn qtype (replies j)
    match queryNameserver txn ns (replies j) with
    | .ok addrs => (.ok (some addrs), last, log)
    | .error (.osError message) =>
      let r := askServers packet txn qtype replies (j + 1) rest (some (.osError message))
      (r.1, r.2.1, log ++ r.2.2)
    | .error e => (.error e, last, log)

/-- How the loop over the candidate names ends: with addresses, or with whether a nameserver has
answered that there are none, and the last error. -/
inductive Found
  | addrs (l : List Addr)
  | none (sawNxdomain : Bool) (last : Option Exc)

def askNames (c : Config) (env : Env) (qtype : ℕ) :
    ℕ → List (List UInt8) → Bool → Option Exc → Except Exc Found × List Query
  | _, [], saw, last => (.ok (.none saw last), [])
  | i, cand :: rest, saw, last =>
    match buildQuery (env.txn i).toNat cand qtype with
    | .error e => (.error e, [])
    | .ok packet =>
      match askServers packet (env.txn i).toNat qtype (env.replies i) 0 c.resolvers last with
      | (.error e, _, log) => (.error e, log)
      | (.ok none, last, log) =>
        let r := askNames c env qtype (i + 1) rest saw last
        (r.1, log ++ r.2)
      | (.ok (some []), last, log) =>
        let r := askNames c env qtype (i + 1) rest true last
        (r.1, log ++ r.2)
      | (.ok (some (a :: l)), _, log) => (.ok (.addrs (a :: l)), log)

def resolveQtype (c : Config) (cache : Cache) (env : Env) (name : List UInt8) (qtype : ℕ) :
    Except Exc (List Addr) × Cache × List Query :=
  let key := (lower name, qtype)
  let keep (addrs : List Addr) : Cache :=
    Function.update cache key (some (addrs, env.now + dnsCacheTtl))
  match (cache key).filter fun x => env.now < x.2 with
  | some x => (.ok x.1, cache, [])
  | none =>
    if c.resolvers = [] then (.ok env.libc, keep env.libc, [])
    else
      match askNames c env qtype 0 (candidateNames c name) false none with
      | (.error e, log) => (.error e, cache, log)
      | (.ok (.addrs l), log) => (.ok l, keep l, log)
      | (.ok (.none true _), log) => (.ok [], keep [], log)
      | (.ok (.none false last), log) =>
        if env.libc ≠ [] then (.ok env.libc, keep env.libc, log)
        else
          match last with
          | some e => (.error e, cache, log)
          | none => (.error (.osError "no DNS nameservers"), cache, log)

/-- `seen4` and `seen6`: the results that the runners have stored when the caller goes on. -/
structure Lookup where
  name : List UInt8
  wantV4 : Bool
  wantV6 : Bool
  env4 : Env
  env6 : Env
  seen4 : Bool
  seen6 : Bool

def label (f : Family) (addrs : List Addr) : List (Family × Addr) := addrs.map fun a => (f, a)

/-- `results[idx]`, as the caller finds it. -/
def runner (seen : Bool) (r : Except Exc (List Addr)) : List Addr :=
  if seen then r.toOption.getD [] else []

def resolveDual (c : Config) (cache : Cache) (l : Lookup) :
    Except Exc (List (Family × Addr)) × Cache × List Query :=
  if l.wantV4 && !l.wantV6 then
    let r := resolveQtype c cache l.env4 l.name qtypeA
    (r.1.map (label .inet), r.2)
  else if l.wantV6 && !l.wantV4 then
    let r := resolveQtype c cache l.env6 l.name qtypeAAAA
    (r.1.map (label .inet6), r.2)
  else
    let r4 := resolveQtype c cache l.env4 l.name qtypeA
    let r6 := resolveQtype c r4.2.1 l.env6 l.name qtypeAAAA
    (.ok (label .inet (runner l.seen4 r4.1) ++ label .inet6 (runner l.seen6 r6.1)),
      r6.2.1, r4.2.2 ++ r6.2.2)

/-- The lookups of a program, one after the other: their results, and the queries made. -/
def lookups (c : Config) : Cache → List Lookup →
    List (Except Exc (List (Family × Addr))) × List Query
  | _, [] => ([], [])
  | cache, l :: rest =>
    let r := resolveDual c cache l
    let r' := lookups c r.2.1 rest
    (r.1 :: r'.1, r.2.2 ++ r'.2)

/-! ## What is to hold -/

/-- The number of questions of a packet, and their bytes. -/
def questionSection (data : List UInt8) : Option (ℕ × List UInt8) :=
  match unpackHeader (slice data 0 12) with
  | .error _ => none
  | .ok h =>
    match skipQuestions data h.qd 12 with
    | .error _ => none
    | .ok off => some (h.qd, slice data 12 off)

/-- The datagram is the response of the nameserver to the query. -/
def Query.Genuine (q : Query) (d : Datagram) : Prop :=
  d.sender = ⟨q.ns, dnsPort⟩ ∧
    (∃ h, unpackHeader (slice (received d) 0 12) = .ok h ∧ h.txn = q.txn ∧
      h.flags &&& 0x8000 ≠ 0) ∧
    questionSection (received d) = questionSection q.packet

/-- Each returned address is the data of another record of the queried type, of the datagram that
was received, and this one is genuine. -/
def Query.Matches (q : Query) : Prop :=
  ∀ addrs, queryNameserver q.txn (.ip q.ns) q.arrivals = .ok addrs → addrs ≠ [] →
    ∃ d, q.arrivals.head? = some d ∧ q.Genuine d ∧
      addrs.Sublist (((answers (received d)).filter (·.rtype = q.qtype)).filterMap
        (Record.address (received d)))

/-- A name of the answers runs past the end of the packet. -/
def overruns (data : List UInt8) : ℕ → ℕ → Bool
  | 0, _ => false
  | an + 1, off =>
    match skipDnsName data off with
    | .error _ => true
    | .ok off =>
      match unpackRecord (slice data off (off + 10)) with
      | .error _ => false
      | .ok (_, rdlength) => overruns data an (off + 10 + rdlength)

/-- The id is right, no error is reported, and all names can be skipped. -/
def Readable (data : List UInt8) (txn : ℕ) : Prop :=
  ∃ h off, Accepts data txn h ∧ skipQuestions data h.qd 12 = .ok off ∧
    overruns data h.an off = false

/-- Whatever is readable and looks like an address comes from the nameserver, in answer to the
question, and is a whole record of the type that was asked for. -/
def Query.Safe (q : Query) : Prop :=
  ∀ d, q.arrivals.head? = some d → Readable (received d) q.txn →
    ∀ r ∈ answers (received d), (r.taken (received d)).isSome = true →
      q.Genuine d ∧ r.rtype = q.qtype ∧ ¬ r.Cut (received d)

/-- `getaddrinfo` of libc gives addresses of the family that it is asked for. -/
def Lookup.LibcOk (l : Lookup) : Prop :=
  (∀ a ∈ l.env4.libc, family a = .inet) ∧ ∀ a ∈ l.env6.libc, family a = .inet6

def WellLabelled (r : Except Exc (List (Family × Addr))) : Prop :=
  ∀ pairs, r = .ok pairs → ∀ p ∈ pairs, family p.2 = p.1

/-! ## The question of a query -/

def encode (labels : List (List UInt8)) : List UInt8 :=
  labels.flatMap fun lbl => UInt8.ofNat lbl.length :: lbl

/-- A name of a query is skipped to its end. -/
theorem skipDnsName_encode (pre rest : List UInt8) {labels : List (List UInt8)}
    (hlabels : ∀ lbl ∈ labels, lbl ≠ [] ∧ lbl.length ≤ 63) :
    skipDnsName (pre ++ encode labels ++ 0 :: rest) pre.length =
      .ok (pre.length + (encode labels).length + 1) := by
  induction labels generalizing pre with
  | nil =>
    unfold skipDnsName
    simp [encode, item]
  | cons lbl labels ih =>
    obtain ⟨hne, hlen⟩ := hlabels lbl List.mem_cons_self
    have hpos : lbl.length ≠ 0 := fun hx => hne (List.length_eq_zero_iff.mp hx)
    have hbyte : (UInt8.ofNat lbl.length).toNat = lbl.length := by
      rw [UInt8.toNat_ofNat']
      omega
    have hitem : item (pre ++ encode (lbl :: labels) ++ 0 :: rest) pre.length =
        .ok lbl.length := by
      simp [item, encode, hbyte]
    have hmask : ¬ lbl.length &&& 0xC0 = 0xC0 := by
      have : lbl.length &&& 0xC0 ≤ lbl.length := Nat.and_le_left
      omega
    have hshift : pre ++ encode (lbl :: labels) ++ 0 :: rest =
        (pre ++ UInt8.ofNat lbl.length :: lbl) ++ encode labels ++ 0 :: rest := by
      simp [encode]
    have hrest := ih (pre ++ UInt8.ofNat lbl.length :: lbl)
      fun l hl => hlabels l (List.mem_cons_of_mem _ hl)
    unfold skipDnsName
    rw [dif_neg (by simp [encode]), hitem]
    simp only [hpos, hmask, if_false]
    rw [hshift, show pre.length + (1 + lbl.length) =
      (pre ++ UInt8.ofNat lbl.length :: lbl).length by simp; omega, hrest]
    simp [encode]
    omega

/-! ## What is read from a datagram -/

section

variable {data : List UInt8} {txn n off : ℕ} {r : Record} {a : Addr}

/-- The loop over the answers raises when a name overruns, and else takes what it can. -/
theorem readAnswers_overruns (data : List UInt8) (n off : ℕ) (addrs : List Addr) :
    (overruns data n off = true → ∃ m, readAnswers data n off addrs = .error (.osError m)) ∧
      (overruns data n off = false → readAnswers data n off addrs =
        .ok (addrs ++ (records data n off).filterMap (Record.taken data))) := by
  induction n generalizing off addrs with
  | zero => exact ⟨by rintro ⟨⟩, fun _ => by simp [readAnswers, records]⟩
  | succ n ih =>
    cases hskip : skipDnsName data off with
    | error e =>
      obtain ⟨m, rfl⟩ := skipDnsName_raises hskip
      refine ⟨fun _ => ⟨m, ?_⟩, fun h => ?_⟩
      · simp only [readAnswers, hskip]
        rfl
      · simp [overruns, hskip] at h
    | ok off' =>
      cases hun : unpackRecord (slice data off' (off' + 10)) with
      | error e =>
        have hshort : data.length < off' + 10 := by
          by_contra hlen
          obtain ⟨x, hx⟩ := unpackRecord_ok (slice data off' (off' + 10))
            (by rw [length_slice]; omega)
          exact absurd (hun.symm.trans hx) (by rintro ⟨⟩)
        refine ⟨fun h => ?_, fun _ => ?_⟩
        · simp [overruns, hskip, hun] at h
        · simp only [readAnswers, hskip, records, hun, List.filterMap_nil, List.append_nil]
          exact if_pos hshort
      | ok x =>
        have hrec : records data (n + 1) off =
            ⟨x.1, x.2, off' + 10⟩ :: records data n (off' + 10 + x.2) := by
          simp only [records, hskip, hun]
        have hover : overruns data (n + 1) off = overruns data n (off' + 10 + x.2) := by
          simp only [overruns, hskip, hun]
        rcases readAnswers_succ data n off addrs with ⟨hnil, -⟩ | ⟨r, hr, hread⟩
        · rw [hrec] at hnil
          cases hnil
        · rw [hrec] at hr
          have hhead : r = ⟨x.1, x.2, off' + 10⟩ := by
            injection hr with hx
            exact hx.symm
          subst hhead
          rw [hread, hover, hrec]
          refine ⟨fun h => (ih _ _).1 h, fun h => ?_⟩
          rw [(ih _ _).2 h, List.append_assoc]
          cases htaken : Record.taken data ⟨x.1, x.2, off' + 10⟩ with
          | none => simp [htaken]
          | some a => simp [htaken]

theorem parse_of_readable (h : Readable data txn) :
    parseDnsAnswer data txn = .ok ((answers data).filterMap (Record.taken data)) := by
  obtain ⟨h, off, ha, hq, hover⟩ := h
  rw [parse_of_accepts ha, hq, answers_of_accepts ha hq]
  exact (readAnswers_overruns data h.an off []).2 hover

theorem parse_of_not_readable (h : ¬ Readable data txn) {addrs : List Addr}
    (hparse : parseDnsAnswer data txn = .ok addrs) : addrs = [] := by
  by_cases ha : ∃ hdr, Accepts data txn hdr
  · obtain ⟨hdr, ha⟩ := ha
    rw [parse_of_accepts ha] at hparse
    cases hq : skipQuestions data hdr.qd 12 with
    | error e =>
      rw [hq] at hparse
      cases hparse
    | ok off =>
      rw [hq] at hparse
      cases hover : overruns data hdr.an off with
      | false => exact absurd ⟨hdr, off, ha, hq, hover⟩ h
      | true =>
        obtain ⟨m, hm⟩ := (readAnswers_overruns data hdr.an off []).1 hover
        exact absurd (hm.symm.trans hparse) (by rintro ⟨⟩)
  · rcases parse_of_not_accepts fun hdr hx => ha ⟨hdr, hx⟩ with ⟨m, hm⟩ | hok
    · exact absurd (hm.symm.trans hparse) (by rintro ⟨⟩)
    · cases hok.symm.trans hparse
      rfl

theorem family_of_taken (h : r.taken data = some a) : family a = familyOf r.rtype := by
  unfold Record.taken at h
  split at h
  · next hA =>
    cases h
    simp [family, familyOf, hA.1]
  · split at h
    · next hA =>
      cases h
      rw [hA.1]
      rfl
    · cases h

/-- A whole record gives its address. -/
theorem taken_of_address (h : r.address data = some a) : r.taken data = some a := by
  have hcut : ¬ r.Cut data := fun hcut => absurd (h.symm.trans (taken_of_cut hcut).2) (by rintro ⟨⟩)
  rw [taken_eq_address hcut, h]

end

/-! ## One query, and its datagram -/

section

variable {α β : Type*} {l : List α} {p : α → Prop} [DecidablePred p] {f g : α → Option β}

/-- Where `g` gives all that `f` gives, its values are among those of `f` on a part of the list only
if they are the same and come from that part. -/
theorem filterMap_sublist_filter (hfg : ∀ r a, f r = some a → g r = some a) :
    (l.filterMap g).Sublist ((l.filter p).filterMap f) ↔
      ∀ r ∈ l, (g r).isSome = true → p r ∧ f r = g r := by
  have hle : ∀ l : List α, ((l.filter p).filterMap f).length ≤ (l.filterMap g).length := by
    intro l
    induction l with
    | nil => exact le_rfl
    | cons r l ih =>
      by_cases hp : p r
      · cases hf : f r with
        | none =>
          cases hg : g r <;> simp [hp, hf, hg] <;> omega
        | some a => simpa [hp, hf, hfg r a hf] using ih
      · cases hg : g r <;> simp [hp, hg] <;> omega
  induction l with
  | nil => simp
  | cons r l ih =>
    cases hg : g r with
    | none =>
      have hf : f r = none := by
        cases hf : f r with
        | none => rfl
        | some a => exact absurd (hg.symm.trans (hfg r a hf)) (by rintro ⟨⟩)
      by_cases hp : p r <;> simp [hp, hf, hg, ih]
    | some a =>
      by_cases hp : p r
      · cases hf : f r with
        | none =>
          have hlen := hle l
          refine ⟨fun hsub => ?_, fun h => ?_⟩
          · have := hsub.length_le
            simp [hp, hf, hg] at this
            omega
          · simpa [hf, hg] using (h r (by simp) (by simp [hg])).2
        | some b =>
          have hab : b = a := Option.some.inj ((hfg r b hf).symm.trans hg)
          subst hab
          simp [hp, hf, hg, ih]
      · have hlen := hle l
        refine ⟨fun hsub => ?_, fun h => ?_⟩
        · have := hsub.length_le
          simp [hp, hg] at this
          omega
        · exact absurd (h r (by simp) (by simp [hg])).1 hp

end

section

variable {q : Query} {addrs : List Addr}

theorem address_iff_not_cut {data : List UInt8} {r : Record}
    (htaken : (r.taken data).isSome = true) : r.address data = r.taken data ↔ ¬ r.Cut data := by
  refine ⟨fun h hcut => ?_, fun h => (taken_eq_address h).symm⟩
  rw [(taken_of_cut hcut).2] at h
  rw [← h] at htaken
  cases htaken

/-- The answers to a query match it exactly when what is received for it is safe. -/
theorem matches_iff_safe (q : Query) : q.Matches ↔ q.Safe := by
  cases harr : q.arrivals with
  | nil =>
    refine iff_of_true ?_ ?_
    · intro addrs hok
      simp [queryNameserver, harr] at hok
    · intro d hd
      simp [harr] at hd
  | cons d rest =>
    have hquery : queryNameserver q.txn (.ip q.ns) q.arrivals =
        parseDnsAnswer (received d) q.txn := by rw [harr]; rfl
    have hhead : q.arrivals.head? = some d := by rw [harr]; rfl
    by_cases hread : Readable (received d) q.txn
    · have hparse := hquery.trans (parse_of_readable hread)
      have hsub := filterMap_sublist_filter (l := answers (received d))
        (p := fun r => r.rtype = q.qtype) (f := Record.address (received d))
        (g := Record.taken (received d)) fun r a => taken_of_address
      constructor
      · intro hm d' hd' _ r hr htaken
        obtain rfl := Option.some.inj (hhead.symm.trans hd')
        have hne : (answers (received d)).filterMap (Record.taken (received d)) ≠ [] := by
          obtain ⟨a, ha⟩ := Option.isSome_iff_exists.mp htaken
          exact List.ne_nil_of_mem (List.mem_filterMap.mpr ⟨r, hr, ha⟩)
        obtain ⟨d', hd', hgen, hs⟩ := hm _ hparse hne
        obtain rfl := Option.some.inj (hhead.symm.trans hd')
        obtain ⟨htype, hsame⟩ := hsub.mp hs r hr htaken
        exact ⟨hgen, htype, (address_iff_not_cut htaken).mp hsame⟩
      · intro hsafe addrs hok hne
        cases hparse.symm.trans hok
        have hall := hsafe d hhead hread
        refine ⟨d, hhead, ?_, hsub.mpr fun r hr htaken => ?_⟩
        · obtain ⟨a, ha⟩ := List.exists_mem_of_ne_nil _ hne
          obtain ⟨r, hr, hra⟩ := List.mem_filterMap.mp ha
          exact (hall r hr (by rw [hra]; rfl)).1
        · obtain ⟨-, htype, hcut⟩ := hall r hr htaken
          exact ⟨htype, (address_iff_not_cut htaken).mpr hcut⟩
    · refine iff_of_true ?_ ?_
      · intro addrs hok hne
        exact absurd (parse_of_not_readable hread (hquery.symm.trans hok)) hne
      · intro d' hd' hx
        obtain rfl := Option.some.inj (hhead.symm.trans hd')
        exact absurd hx hread

/-- The addresses of a safe query are of the family it asks for. -/
theorem safe_family (hsafe : q.Safe)
    (hok : queryNameserver q.txn (.ip q.ns) q.arrivals = .ok addrs) :
    ∀ a ∈ addrs, family a = familyOf q.qtype := by
  intro a ha
  cases harr : q.arrivals with
  | nil => simp [queryNameserver, harr] at hok
  | cons d rest =>
    have hhead : q.arrivals.head? = some d := by rw [harr]; rfl
    rw [harr] at hok
    change parseDnsAnswer (received d) q.txn = .ok addrs at hok
    by_cases hread : Readable (received d) q.txn
    · cases (parse_of_readable hread).symm.trans hok
      obtain ⟨r, hr, hra⟩ := List.mem_filterMap.mp ha
      rw [family_of_taken hra, (hsafe d hhead hread r hr (by rw [hra]; rfl)).2.1]
    · rw [parse_of_not_readable hread hok] at ha
      cases ha

end

/-! ## The family of what is cached and returned -/

/-- Addresses in answer to a query of this type. -/
def Fits (qtype : ℕ) (addrs : List Addr) : Prop := ∀ a ∈ addrs, family a = familyOf qtype

section

variable {c : Config} {env : Env} {cache : Cache} {qtype : ℕ} {name : List UInt8}

theorem askServers_fits {packet : List UInt8} {txn j : ℕ} {replies : ℕ → List Datagram}
    {servers : List Server} {last last' : Option Exc} {addrs : List Addr} {log : List Query}
    (hask : askServers packet txn qtype replies j servers last = (.ok (some addrs), last', log))
    (hsafe : ∀ q ∈ log, q.Safe) : Fits qtype addrs := by
  induction servers generalizing j last log with
  | nil => cases hask
  | cons ns rest ih =>
    simp only [askServers] at hask
    split at hask
    · next addrs' hq =>
      cases hask
      cases ns with
      | other text => cases hq
      | ip a => exact safe_family (hsafe _ (List.mem_singleton_self _)) hq
    · next m hq =>
      obtain ⟨hres, hrest⟩ := Prod.mk.inj hask
      obtain ⟨hlast, rfl⟩ := Prod.mk.inj hrest
      refine ih (Prod.ext hres (Prod.ext hlast rfl)) fun q hx => ?_
      exact hsafe q (List.mem_append_right _ hx)
    · cases hask

theorem askNames_fits {i : ℕ} {names : List (List UInt8)} {saw : Bool} {last : Option Exc}
    {addrs : List Addr} {log : List Query}
    (hask : askNames c env qtype i names saw last = (.ok (.addrs addrs), log))
    (hsafe : ∀ q ∈ log, q.Safe) : Fits qtype addrs := by
  induction names generalizing i saw last log with
  | nil => cases hask
  | cons cand rest ih =>
    simp only [askNames] at hask
    split at hask
    · cases hask
    · split at hask
      · cases hask
      · obtain ⟨hres, rfl⟩ := Prod.mk.inj hask
        exact ih (Prod.ext hres rfl) fun q hx => hsafe q (List.mem_append_right _ hx)
      · obtain ⟨hres, rfl⟩ := Prod.mk.inj hask
        exact ih (Prod.ext hres rfl) fun q hx => hsafe q (List.mem_append_right _ hx)
      · next hservers =>
        cases hask
        exact askServers_fits hservers hsafe

def CacheFits (cache : Cache) : Prop :=
  ∀ n qtype x, cache (n, qtype) = some x → Fits qtype x.1

theorem CacheFits.keep {n : List UInt8} {addrs : List Addr} {expires : ℕ} (h : CacheFits cache)
    (ha : Fits qtype addrs) :
    CacheFits (Function.update cache (n, qtype) (some (addrs, expires))) := by
  intro n' qtype' x hx
  by_cases hkey : (n', qtype') = (n, qtype)
  · rw [hkey, Function.update_self] at hx
    cases hx
    cases hkey
    exact ha
  · rw [Function.update_of_ne hkey] at hx
    exact h n' qtype' x hx

theorem resolveQtype_fits (h : CacheFits cache) (hlibc : Fits qtype env.libc)
    (hsafe : ∀ q ∈ (resolveQtype c cache env name qtype).2.2, q.Safe) :
    CacheFits (resolveQtype c cache env name qtype).2.1 ∧
      ∀ addrs, (resolveQtype c cache env name qtype).1 = .ok addrs → Fits qtype addrs := by
  simp only [resolveQtype] at hsafe ⊢
  split
  · next x hx =>
    refine ⟨h, fun addrs hok => ?_⟩
    cases hok
    exact h _ _ x (Option.filter_eq_some_iff.mp hx).1
  · next hnone =>
    simp only [hnone] at hsafe
    split
    · refine ⟨h.keep hlibc, fun addrs hok => ?_⟩
      cases hok
      exact hlibc
    · next hres =>
      simp only [hres, if_false] at hsafe
      split
      · exact ⟨h, by rintro _ ⟨⟩⟩
      · next l log hask =>
        simp only [hask] at hsafe
        have hl : Fits qtype l := askNames_fits hask hsafe
        refine ⟨h.keep hl, fun addrs hok => ?_⟩
        cases hok
        exact hl
      · refine ⟨h.keep (by rintro _ ⟨⟩), fun addrs hok => ?_⟩
        cases hok
        rintro _ ⟨⟩
      · split
        · refine ⟨h.keep hlibc, fun addrs hok => ?_⟩
          cases hok
          exact hlibc
        · split
          · exact ⟨h, by rintro _ ⟨⟩⟩
          · exact ⟨h, by rintro _ ⟨⟩⟩

theorem label_family {f : Family} {addrs : List Addr} (h : ∀ a ∈ addrs, family a = f) :
    ∀ p ∈ label f addrs, family p.2 = p.1 := by
  intro p hp
  obtain ⟨a, ha, rfl⟩ := List.mem_map.mp hp
  exact h a ha

theorem runner_family {f : Family} {seen : Bool} {r : Except Exc (List Addr)}
    (h : ∀ addrs, r = .ok addrs → ∀ a ∈ addrs, family a = f) :
    ∀ a ∈ runner seen r, family a = f := by
  unfold runner
  split
  · cases r with
    | error e => rintro _ ⟨⟩
    | ok addrs => exact h addrs rfl
  · rintro _ ⟨⟩

theorem map_labelled {f : Family} {r : Except Exc (List Addr)}
    (h : ∀ addrs, r = .ok addrs → ∀ a ∈ addrs, family a = f) :
    WellLabelled (r.map (label f)) := by
  intro pairs hok
  cases r with
  | error e => cases hok
  | ok addrs =>
    cases hok
    exact label_family (h addrs rfl)

theorem resolveDual_labelled {l : Lookup} (h : CacheFits cache) (hlibc : l.LibcOk)
    (hsafe : ∀ q ∈ (resolveDual c cache l).2.2, q.Safe) :
    CacheFits (resolveDual c cache l).2.1 ∧ WellLabelled (resolveDual c cache l).1 := by
  have h4 : Fits qtypeA l.env4.libc := hlibc.1
  have h6 : Fits qtypeAAAA l.env6.libc := hlibc.2
  simp only [resolveDual] at hsafe ⊢
  split
  · next hw =>
    simp only [hw, if_true] at hsafe
    obtain ⟨hcache, hfits⟩ := resolveQtype_fits h h4 hsafe
    exact ⟨hcache, map_labelled hfits⟩
  · next hw =>
    simp only [hw] at hsafe
    split
    · next hw' =>
      simp only [hw', if_true] at hsafe
      obtain ⟨hcache, hfits⟩ := resolveQtype_fits h h6 hsafe
      exact ⟨hcache, map_labelled hfits⟩
    · next hw' =>
      simp only [hw'] at hsafe
      obtain ⟨hcache, hfits⟩ :=
        resolveQtype_fits h h4 fun q hq => hsafe q (List.mem_append_left _ hq)
      obtain ⟨hcache', hfits'⟩ :=
        resolveQtype_fits hcache h6 fun q hq => hsafe q (List.mem_append_right _ hq)
      refine ⟨hcache', fun pairs hok => ?_⟩
      cases hok
      intro p hp
      rcases List.mem_append.mp hp with hp | hp
      · exact label_family (runner_family hfits) p hp
      · exact label_family (runner_family hfits') p hp

theorem lookups_labelled {ls : List Lookup} (h : CacheFits cache) (hlibc : ∀ l ∈ ls, l.LibcOk)
    (hsafe : ∀ q ∈ (lookups c cache ls).2, q.Safe) :
    ∀ r ∈ (lookups c cache ls).1, WellLabelled r := by
  induction ls generalizing cache with
  | nil => rintro _ ⟨⟩
  | cons l ls ih =>
    simp only [lookups] at hsafe ⊢
    obtain ⟨hcache, hlab⟩ := resolveDual_labelled h (hlibc l List.mem_cons_self)
      fun q hq => hsafe q (List.mem_append_left _ hq)
    intro r hr
    rcases List.mem_cons.mp hr with rfl | hr
    · exact hlab
    · exact ih hcache (fun l' hl' => hlibc l' (List.mem_cons_of_mem _ hl'))
        (fun q hq => hsafe q (List.mem_append_right _ hq)) r hr

end

/-- **Answers match** exactly when what is received is safe: for one query, and for all the queries
and the results of any sequence of lookups. -/
theorem answers_match_iff (c : Config) (ls : List Lookup) :
    (∀ q : Query, q.Matches ↔ q.Safe) ∧
    ((∀ l ∈ ls, Lookup.LibcOk l) →
      (((∀ q ∈ (lookups c (fun _ => none) ls).2, q.Matches) ∧
        ∀ r ∈ (lookups c (fun _ => none) ls).1, WellLabelled r) ↔
      ∀ q ∈ (lookups c (fun _ => none) ls).2, q.Safe)) := by
  refine ⟨matches_iff_safe, fun hlibc => ⟨fun h q hq => ?_, fun h => ⟨fun q hq => ?_, ?_⟩⟩⟩
  · exact (matches_iff_safe q).mp (h.1 q hq)
  · exact (matches_iff_safe q).mpr (h q hq)
  · exact lookups_labelled (by rintro _ _ _ ⟨⟩) hlibc h

/-- The A query for `a`, with the id 7, to 10.0.0.53. -/
def askA (arrivals : List Datagram) : Query :=
  { ns := .inet [10, 0, 0, 53]
    packet := [0, 7, 1, 0, 0, 1, 0, 0, 0, 0, 0, 1, 1, 97, 0, 0, 1, 0, 1, 0, 0, 41, 16, 0, 0, 0, 0, 0,
      0, 0]
    txn := 7, qtype := qtypeA, arrivals }

def lookupA (arrivals : List Datagram) : Lookup :=
  { name := [97], wantV4 := true, wantV6 := false
    env4 := { now := 0, txn := fun _ => 7, replies := fun _ _ => arrivals, libc := [] }
    env6 := { now := 0, txn := fun _ => 7, replies := fun _ _ => [], libc := [] }
    seen4 := true, seen6 := true }

def oneServer : Config := { resolvers := [.ip (.inet [10, 0, 0, 53])], search := [], ndots := 1 }

/-- The nameserver answers with an A record. -/
def reply : Datagram :=
  { sender := ⟨.inet [10, 0, 0, 53], 53⟩
    data := [0, 7, 0x81, 0x80, 0, 1, 0, 1, 0, 0, 0, 0, 1, 97, 0, 0, 1, 0, 1,
      0xC0, 12, 0, 1, 0, 1, 0, 0, 0, 60, 0, 4, 10, 0, 0, 1] }

theorem answers_match_reply :
    (lookups oneServer (fun _ => none) [lookupA [reply]]).1 =
        [.ok [(.inet, .inet [10, 0, 0, 1])]] ∧
      (askA [reply]).Matches ∧
      ∀ r ∈ (lookups oneServer (fun _ => none) [lookupA [reply]]).1, WellLabelled r := by
  have hlog : (lookups oneServer (fun _ => none) [lookupA [reply]]).2 = [askA [reply]] := by
    decide +kernel
  have hlibc : ∀ l ∈ [lookupA [reply]], Lookup.LibcOk l := by
    intro l hl
    obtain rfl := List.mem_singleton.mp hl
    exact ⟨by rintro _ ⟨⟩, by rintro _ ⟨⟩⟩
  have hanswers : answers (received reply) = [{ rtype := 1, rdlength := 4, start := 31 }] := by
    decide +kernel
  have hgenuine : (askA [reply]).Genuine reply :=
    ⟨rfl, ⟨⟨7, 0x8180, 1, 1⟩, by decide +kernel, rfl, by decide⟩, by decide +kernel⟩
  have hsafe : (askA [reply]).Safe := by
    intro d hd _ r hr _
    cases hd
    rw [hanswers] at hr
    obtain rfl := List.mem_singleton.mp hr
    exact ⟨hgenuine, rfl, fun hcut => absurd hcut.1 (by decide +kernel)⟩
  have hall := ((answers_match_iff oneServer [lookupA [reply]]).2 hlibc).mpr fun q hq => by
    rw [hlog] at hq
    obtain rfl := List.mem_singleton.mp hq
    exact hsafe
  exact ⟨by decide +kernel, hall.1 _ (by rw [hlog]; exact List.mem_singleton_self _), hall.2⟩

/-- Somebody else sends an AAAA record, with the id and nothing else of the query. -/
def forged : Datagram :=
  { sender := ⟨.inet [6, 6, 6, 6], 5353⟩
    data := [0, 7, 0, 0, 0, 0, 0, 1, 0, 0, 0, 0,
      0, 0, 28, 0, 1, 0, 0, 0, 60, 0, 16, 6, 6, 6, 6, 0, 0, 0, 0, 0, 0, 0, 0, 0, 0, 0, 1] }

theorem forged_accepted :
    (¬ ∀ (q : Query) name, buildQuery q.txn name q.qtype = .ok q.packet → q.Matches) ∧
      ¬ ∀ c ls, (∀ l ∈ ls, Lookup.LibcOk l) →
        ∀ r ∈ (lookups c (fun _ => none) ls).1, WellLabelled r := by
  constructor
  · intro h
    have hm := h (askA [forged]) [97] (by decide +kernel)
    obtain ⟨d, hd, hgen, -⟩ := hm
      [.inet6 [6, 6, 6, 6, 0, 0, 0, 0, 0, 0, 0, 0, 0, 0, 0, 1]] (by decide +kernel) (by rintro ⟨⟩)
    cases hd
    exact absurd hgen.1 (by decide)
  · intro h
    have hres : (lookups oneServer (fun _ => none) [lookupA [forged]]).1 =
        [.ok [(.inet, .inet6 [6, 6, 6, 6, 0, 0, 0, 0, 0, 0, 0, 0, 0, 0, 0, 1])]] := by
      decide +kernel
    have hlab := h oneServer [lookupA [forged]] (by
      intro l hl
      obtain rfl := List.mem_singleton.mp hl
      exact ⟨by rintro _ ⟨⟩, by rintro _ ⟨⟩⟩) _ (by rw [hres]; exact List.mem_singleton_self _)
    exact absurd (hlab _ rfl _ (List.mem_singleton_self _)) (by decide)

end Stackweave.Monkey.DnsQuery
