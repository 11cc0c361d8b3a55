import Mathlib.Data.List.Forall2
import Stackweave.Monkey.DnsQuery

/-!
# Negative answers (`monkey/dns.py`)

`_resolve_qtype` has a candidate name answered by the first nameserver that does not fail, and goes
on to the next candidate where there is no such nameserver and where the answer is empty. One flag
for the whole list says whether an empty answer was seen.
-/

namespace Stackweave.Monkey.DnsNegative

open Dns DnsQuery

variable (c : Config) (cache : Cache) (env : Env) (name : List UInt8) (qtype : ℕ)

/-! ## What the answers are -/

/-- A query for the candidate `i` to the nameserver `j`. -/
def query (i : ℕ) (cand : List UInt8) (ns : Server) (j : ℕ) : Except Exc (List Addr) := do
  let _ ← buildQuery (env.txn i).toNat cand qtype
  queryNameserver (env.txn i).toNat ns (env.replies i j)

/-- The answer of the first nameserver whose query does not fail. -/
def answer (i : ℕ) (cand : List UInt8) : Option (List Addr) :=
  c.resolvers.zipIdx.findSome? fun p => (query env qtype i cand p.1 p.2).toOption

def answers : List (Option (List Addr)) := (candidateNames c name).mapIdx (answer c env qtype)

/-- The first answer that has addresses. -/
def firstAddrs (as : List (Option (List Addr))) : Option (List Addr) :=
  as.findSome? fun a => a.filter fun l => l ≠ []

/-- An empty result only where every candidate name has an empty answer. Otherwise, and where none
has addresses, the result is that of libc, whatever it is. -/
structure Definitive : Prop where
  found : ∀ l, firstAddrs (answers c env name qtype) = some l →
    (resolveQtype c cache env name qtype).1 = .ok l
  negative : ((resolveQtype c cache env name qtype).1 = .ok [] ∨
      ∃ t, env.now < t ∧
        (resolveQtype c cache env name qtype).2.1 (lower name, qtype) = some ([], t)) →
    ∀ a ∈ answers c env name qtype, a = some []
  empty : (∀ a ∈ answers c env name qtype, a = some []) →
    (resolveQtype c cache env name qtype).1 = .ok []
  other : firstAddrs (answers c env name qtype) = none →
    (∃ a ∈ answers c env name qtype, a ≠ some []) → ∀ libc,
      (libc ≠ [] → (resolveQtype c cache { env with libc := libc } name qtype).1 = .ok libc) ∧
      (libc = [] →
        ∃ e, (resolveQtype c cache { env with libc := libc } name qtype).1 = .error e)

/-! ## What the code makes of them -/

/-- What the loop over the nameservers gives for one candidate name. `broken`: the name does not go
into a query, or the parser of the answers raises something that is not an `OSError`. -/
inductive Reply
  | broken
  | failed
  | empty
  | addrs (a : Addr) (l : List Addr)
  deriving DecidableEq

def reply (i : ℕ) (cand : List UInt8) : Reply :=
  match buildQuery (env.txn i).toNat cand qtype with
  | .error _ => .broken
  | .ok packet =>
    match (askServers packet (env.txn i).toNat qtype (env.replies i) 0 c.resolvers none).1 with
    | .error _ => .broken
    | .ok none => .failed
    | .ok (some []) => .empty
    | .ok (some (a :: l)) => .addrs a l

def replies : List Reply := (candidateNames c name).mapIdx (reply c env qtype)

def Reply.hasAddrs : Reply → Bool
  | .addrs _ _ => true
  | _ => false

/-- Nothing breaks before there are addresses, and where there are none either every candidate name
is answered or none is. -/
def Decided (rs : List Reply) : Prop :=
  (∀ r ∈ rs.takeWhile fun r => !r.hasAddrs, r ≠ .broken) ∧
    ((∃ r ∈ rs, r.hasAddrs = true) ∨ (∀ r ∈ rs, r ≠ .empty) ∨ ∀ r ∈ rs, r ≠ .failed)

instance (rs : List Reply) : Decidable (Decided rs) := by
  unfold Decided
  infer_instance

/-- How the loop over the candidate names ends. -/
inductive Ending
  | broken
  | addrs (a : Addr) (l : List Addr)
  | none (saw : Bool)

def scan : List Reply → Bool → Ending
  | [], saw => .none saw
  | .broken :: _, _ => .broken
  | .failed :: rs, saw => scan rs saw
  | .empty :: rs, _ => scan rs true
  | .addrs a l :: _, _ => .addrs a l

variable {c cache env name qtype}

/-! ## The loop over the nameservers -/

/-- The errors before and the packet are for the record only. -/
theorem askServers_fst (packet packet' : List UInt8) (txn : ℕ) (rep : ℕ → List Datagram) (j : ℕ)
    (servers : List Server) (last last' : Option Exc) :
    (askServers packet txn qtype rep j servers last).1 =
      (askServers packet' txn qtype rep j servers last').1 := by
  induction servers generalizing j last last' with
  | nil => rfl
  | cons ns rest ih =>
    simp only [askServers]
    split
    · rfl
    · exact ih _ _ _
    · rfl

/-- Where no server breaks the parser the loop gives the first answer. -/
theorem askServers_answer {packet : List UInt8} {txn j : ℕ} {rep : ℕ → List Datagram}
    {servers : List Server} {last : Option Exc} {o : Option (List Addr)}
    (h : (askServers packet txn qtype rep j servers last).1 = .ok o) :
    (servers.zipIdx j).findSome? (fun p => (queryNameserver txn p.1 (rep p.2)).toOption) = o := by
  induction servers generalizing j last with
  | nil =>
    cases h
    rfl
  | cons ns rest ih =>
    simp only [askServers] at h
    rw [List.zipIdx_cons, List.findSome?_cons]
    split at h
    · rename_i addrs hq
      cases h
      simp [hq, Except.toOption]
    · rename_i message hq
      simp only [hq, Except.toOption]
      exact ih h
    · cases h

/-- The answer that goes with a reply. -/
def Agrees : Reply → Option (List Addr) → Prop
  | .broken, _ => True
  | .failed, a => a = none
  | .empty, a => a = some []
  | .addrs b l, a => a = some (b :: l)

theorem answer_of_build {i : ℕ} {cand packet : List UInt8}
    (h : buildQuery (env.txn i).toNat cand qtype = .ok packet) :
    answer c env qtype i cand = c.resolvers.zipIdx.findSome? fun p =>
      (queryNameserver (env.txn i).toNat p.1 (env.replies i p.2)).toOption := by
  unfold answer query
  rw [h]
  rfl

theorem reply_agrees (i : ℕ) (cand : List UInt8) :
    Agrees (reply c env qtype i cand) (answer c env qtype i cand) := by
  unfold reply
  split
  · trivial
  · rename_i packet hpacket
    rw [answer_of_build hpacket]
    split
    · trivial
    · rename_i h
      exact askServers_answer h
    · rename_i h
      exact askServers_answer h
    · rename_i h
      exact askServers_answer h

theorem replies_agree : List.Forall₂ Agrees (replies c env name qtype) (answers c env name qtype) := by
  refine List.forall₂_iff_get.mpr ⟨by simp [replies, answers], fun i _ _ => ?_⟩
  simp only [replies, answers, List.get_eq_getElem, List.getElem_mapIdx]
  exact reply_agrees _ _

/-! ## The loop over the candidate names -/

/-- What `askNames` says of an ending. -/
def Ending.Of : Ending → Except Exc Found → Prop
  | .broken, r => ∃ e, r = .error e
  | .addrs a l, r => r = .ok (.addrs (a :: l))
  | .none saw, r => ∃ last, r = .ok (.none saw last)

theorem askNames_scan (i : ℕ) (names : List (List UInt8)) (saw : Bool) (last : Option Exc) :
    (scan ((names.zipIdx i).map fun p => reply c env qtype p.2 p.1) saw).Of
      (askNames c env qtype i names saw last).1 := by
  induction names generalizing i saw last with
  | nil => exact ⟨last, rfl⟩
  | cons cand rest ih =>
    rw [List.zipIdx_cons, List.map_cons]
    simp only [askNames]
    cases hb : buildQuery (env.txn i).toNat cand qtype with
    | error e =>
      have hr : reply c env qtype i cand = .broken := by simp only [reply, hb]
      rw [hr]
      exact ⟨e, rfl⟩
    | ok packet =>
      have hfst : (askServers packet (env.txn i).toNat qtype (env.replies i) 0 c.resolvers last).1 =
          (askServers packet (env.txn i).toNat qtype (env.replies i) 0 c.resolvers none).1 :=
        askServers_fst ..
      generalize hask :
        askServers packet (env.txn i).toNat qtype (env.replies i) 0 c.resolvers last = res at hfst
      obtain ⟨o, last', log⟩ := res
      rcases o with e | _ | _ | ⟨a, l⟩
      · have hr : reply c env qtype i cand = .broken := by simp only [reply, hb, ← hfst]
        simp only [hr, hask]
        exact ⟨e, rfl⟩
      · have hr : reply c env qtype i cand = .failed := by simp only [reply, hb, ← hfst]
        simp only [hr, hask]
        exact ih _ _ _
      · have hr : reply c env qtype i cand = .empty := by simp only [reply, hb, ← hfst]
        simp only [hr, hask]
        exact ih _ _ _
      · have hr : reply c env qtype i cand = .addrs a l := by simp only [reply, hb, ← hfst]
        simp only [hr, hask]
        rfl

theorem askNames_replies :
    (scan (replies c env name qtype) false).Of
      (askNames c env qtype 0 (candidateNames c name) false none).1 := by
  rw [replies, List.mapIdx_eq_zipIdx_map]
  exact askNames_scan 0 _ false none

/-- The result, and what the cache has afterwards. -/
def Ending.Gives (cache : Cache) (key : List UInt8 × ℕ) (libc : List Addr) (expires : ℕ) :
    Ending → Except Exc (List Addr) → Cache → Prop
  | .broken, r, k => (∃ e, r = .error e) ∧ k = cache
  | .addrs a l, r, k => r = .ok (a :: l) ∧ k = Function.update cache key (some (a :: l, expires))
  | .none true, r, k => r = .ok [] ∧ k = Function.update cache key (some ([], expires))
  | .none false, r, k =>
    libc ≠ [] ∧ r = .ok libc ∧ k = Function.update cache key (some (libc, expires)) ∨
      libc = [] ∧ (∃ e, r = .error e) ∧ k = cache

theorem resolveQtype_gives (env : Env) (hres : c.resolvers ≠ [])
    (hcache : (cache (lower name, qtype)).filter (fun x => env.now < x.2) = none) :
    (scan (replies c env name qtype) false).Gives cache (lower name, qtype) env.libc
      (env.now + dnsCacheTtl) (resolveQtype c cache env name qtype).1
      (resolveQtype c cache env name qtype).2.1 := by
  have h : (scan (replies c env name qtype) false).Of
      (askNames c env qtype 0 (candidateNames c name) false none).1 := askNames_replies
  unfold resolveQtype
  simp only [hcache, hres, ↓reduceIte]
  generalize askNames c env qtype 0 (candidateNames c name) false none = res at h
  obtain ⟨o, log⟩ := res
  generalize scan (replies c env name qtype) false = ending at h
  rcases ending with _ | ⟨a, l⟩ | ⟨_ | _⟩
  · obtain ⟨e, rfl⟩ := h
    exact ⟨⟨e, rfl⟩, rfl⟩
  · cases h
    exact ⟨rfl, rfl⟩
  · obtain ⟨last, rfl⟩ := h
    by_cases hlibc : env.libc = []
    · simp only [hlibc, ne_eq, not_true_eq_false, ↓reduceIte]
      refine .inr ⟨rfl, ?_⟩
      cases last with
      | none => exact ⟨⟨_, rfl⟩, rfl⟩
      | some e => exact ⟨⟨e, rfl⟩, rfl⟩
    · simp only [ne_eq, hlibc, not_false_eq_true, ↓reduceIte]
      exact .inl ⟨hlibc, rfl, rfl⟩
  · obtain ⟨last, rfl⟩ := h
    exact ⟨rfl, rfl⟩

/-! ## The replies of a list of candidates -/

theorem scan_broken {rs : List Reply} {saw : Bool} (h : scan rs saw = .broken) :
    .broken ∈ rs.takeWhile fun r => !r.hasAddrs := by
  induction rs generalizing saw with
  | nil => cases h
  | cons r rs ih =>
    cases r with
    | broken => simp [Reply.hasAddrs]
    | failed | empty =>
      rw [List.takeWhile_cons_of_pos rfl]
      exact List.mem_cons_of_mem _ (ih h)
    | addrs a l => cases h

/-- Addresses are those of the first candidate that has some. -/
theorem scan_addrs {rs : List Reply} {as : List (Option (List Addr))} {saw : Bool} {a : Addr}
    {l : List Addr} (hag : List.Forall₂ Agrees rs as) (h : scan rs saw = .addrs a l) :
    firstAddrs as = some (a :: l) ∧ (∀ r ∈ rs.takeWhile fun r => !r.hasAddrs, r ≠ .broken) ∧
      .addrs a l ∈ rs := by
  induction hag generalizing saw with
  | nil => cases h
  | @cons r b rs as hrb hag ih =>
    cases r with
    | broken => cases h
    | failed | empty =>
      obtain ⟨hfirst, hbroken, hmem⟩ := ih h
      obtain rfl := hrb
      refine ⟨hfirst, ?_, List.mem_cons_of_mem _ hmem⟩
      rw [List.takeWhile_cons_of_pos rfl]
      intro r hr
      rcases List.mem_cons.mp hr with rfl | hr
      · rintro ⟨⟩
      · exact hbroken r hr
    | addrs b' l' =>
      cases h
      obtain rfl := hrb
      refine ⟨by simp [firstAddrs], ?_, List.mem_cons_self⟩
      rw [List.takeWhile_cons_of_neg (by simp [Reply.hasAddrs])]
      rintro _ ⟨⟩

/-- Without addresses every candidate has failed or is empty, and the flag tells of the empty. -/
theorem scan_none {rs : List Reply} {as : List (Option (List Addr))} {saw saw' : Bool}
    (hag : List.Forall₂ Agrees rs as) (h : scan rs saw = .none saw') :
    firstAddrs as = none ∧ (∀ r ∈ rs, r = .failed ∨ r = .empty) ∧
      (saw' = true ↔ saw = true ∨ .empty ∈ rs) := by
  induction hag generalizing saw with
  | nil =>
    cases h
    exact ⟨rfl, by rintro _ ⟨⟩, by simp⟩
  | @cons r b rs as hrb hag ih =>
    cases r with
    | broken => cases h
    | failed =>
      obtain ⟨hfirst, hall, hsaw⟩ := ih h
      obtain rfl := hrb
      refine ⟨hfirst, ?_, by simpa using hsaw⟩
      rintro r (_ | ⟨_, hr⟩)
      · exact .inl rfl
      · exact hall r hr
    | empty =>
      obtain ⟨hfirst, hall, hsaw⟩ := ih h
      obtain rfl := hrb
      refine ⟨hfirst, ?_, by simpa using hsaw⟩
      rintro r (_ | ⟨_, hr⟩)
      · exact .inr rfl
      · exact hall r hr
    | addrs b' l' => cases h

theorem candidateNames_ne_nil (c : Config) (name : List UInt8) : candidateNames c name ≠ [] := by
  unfold candidateNames
  split
  · rintro ⟨⟩
  · split <;> simp

theorem agrees_of_mem {rs : List Reply} {as : List (Option (List Addr))}
    (hag : List.Forall₂ Agrees rs as) :
    (∀ r ∈ rs, ∃ a ∈ as, Agrees r a) ∧ ∀ a ∈ as, ∃ r ∈ rs, Agrees r a := by
  induction hag with
  | nil => exact ⟨by rintro _ ⟨⟩, by rintro _ ⟨⟩⟩
  | @cons r a rs as hra hag ih =>
    constructor
    · rintro r' (_ | ⟨_, hr⟩)
      · exact ⟨a, List.mem_cons_self, hra⟩
      · obtain ⟨b, hb, hrb⟩ := ih.1 r' hr
        exact ⟨b, List.mem_cons_of_mem _ hb, hrb⟩
    · rintro a' (_ | ⟨_, ha⟩)
      · exact ⟨r, List.mem_cons_self, hra⟩
      · obtain ⟨b, hb, hba⟩ := ih.2 a' ha
        exact ⟨b, List.mem_cons_of_mem _ hb, hba⟩

/-! ## When negative answers are definitive -/

section Cases

variable (hres : c.resolvers ≠ [])
  (hcache : (cache (lower name, qtype)).filter (fun x => env.now < x.2) = none)

include hres hcache

theorem not_definitive_of_broken (h : scan (replies c env name qtype) false = .broken) :
    ¬Definitive c cache env name qtype := by
  intro hd
  have hraises (libc : List Addr) :
      ∃ e, (resolveQtype c cache { env with libc := libc } name qtype).1 = .error e := by
    have hgives := resolveQtype_gives { env with libc := libc } hres hcache
    rw [show replies c { env with libc := libc } name qtype = replies c env name qtype from rfl, h]
      at hgives
    exact hgives.1
  obtain ⟨e, he⟩ := hraises env.libc
  cases hfirst : firstAddrs (answers c env name qtype) with
  | some l =>
    have hok := hd.found l hfirst
    rw [show resolveQtype c cache env name qtype =
      resolveQtype c cache { env with libc := env.libc } name qtype from rfl, he] at hok
    cases hok
  | none =>
    by_cases hall : ∀ a ∈ answers c env name qtype, a = some []
    · have hok := hd.empty hall
      rw [show resolveQtype c cache env name qtype =
        resolveQtype c cache { env with libc := env.libc } name qtype from rfl, he] at hok
      cases hok
    · obtain ⟨a, ha, hne⟩ : ∃ a ∈ answers c env name qtype, a ≠ some [] := by simpa using hall
      have hok := (hd.other hfirst ⟨a, ha, hne⟩ [.inet []]).1 (by rintro ⟨⟩)
      obtain ⟨e', he'⟩ := hraises [.inet []]
      rw [he'] at hok
      cases hok

theorem definitive_of_addrs {a : Addr} {l : List Addr}
    (h : scan (replies c env name qtype) false = .addrs a l) :
    Definitive c cache env name qtype := by
  obtain ⟨hfirst, -, hmem⟩ := scan_addrs replies_agree h
  have hgives := resolveQtype_gives env hres hcache
  rw [h] at hgives
  obtain ⟨b, hb, hab⟩ := (agrees_of_mem replies_agree).1 _ hmem
  obtain rfl := hab
  refine ⟨fun l' hl' => ?_, ?_, fun hall => ?_, fun hnone => ?_⟩
  · rw [hfirst] at hl'
    cases hl'
    exact hgives.1
  · rintro (hok | ⟨t, -, hcached⟩)
    · rw [hgives.1] at hok
      cases hok
    · rw [hgives.2, Function.update_self] at hcached
      cases hcached
  · cases hall _ hb
  · rw [hfirst] at hnone
    cases hnone

/-- An empty answer was seen, and the code returns and caches an empty result. -/
theorem definitive_of_saw (h : scan (replies c env name qtype) false = .none true) :
    Definitive c cache env name qtype ↔ ∀ r ∈ replies c env name qtype, r ≠ .failed := by
  obtain ⟨hfirst, hall, -⟩ := scan_none replies_agree h
  have hgives := resolveQtype_gives env hres hcache
  rw [h] at hgives
  constructor
  · rintro hd r hr rfl
    obtain ⟨a, ha, hra⟩ := (agrees_of_mem replies_agree).1 _ hr
    rw [show a = none from hra] at ha
    cases hd.negative (.inl hgives.1) _ ha
  · intro hfailed
    have hempty (a : Option (List Addr)) (ha : a ∈ answers c env name qtype) : a = some [] := by
      obtain ⟨r, hr, hra⟩ := (agrees_of_mem replies_agree).2 a ha
      rw [(hall r hr).resolve_left (hfailed r hr)] at hra
      exact hra
    refine ⟨fun l hl => ?_, fun _ => hempty, fun _ => hgives.1, fun _ hother => ?_⟩
    · rw [hfirst] at hl
      cases hl
    · obtain ⟨a, ha, hne⟩ := hother
      exact absurd (hempty a ha) hne

theorem definitive_of_unseen (h : scan (replies c env name qtype) false = .none false) :
    Definitive c cache env name qtype ∧ ∀ r ∈ replies c env name qtype, r ≠ .empty := by
  obtain ⟨hfirst, hall, hsaw⟩ := scan_none replies_agree h
  have hempty (r : Reply) (hr : r ∈ replies c env name qtype) : r ≠ .empty := by
    rintro rfl
    exact absurd (hsaw.mpr (.inr hr)) Bool.false_ne_true
  have hnone (a : Option (List Addr)) (ha : a ∈ answers c env name qtype) : a = none := by
    obtain ⟨r, hr, hra⟩ := (agrees_of_mem replies_agree).2 a ha
    rw [(hall r hr).resolve_right (hempty r hr)] at hra
    exact hra
  have hgives (libc : List Addr) := resolveQtype_gives { env with libc := libc } hres hcache
  have hsame (libc : List Addr) :
      scan (replies c { env with libc := libc } name qtype) false = .none false := h
  refine ⟨⟨fun l hl => ?_, ?_, fun hall => ?_, fun _ _ libc => ?_⟩, hempty⟩
  · rw [hfirst] at hl
    cases hl
  · have hlibc := hgives env.libc
    rw [hsame] at hlibc
    rintro (hok | ⟨t, ht, hcached⟩)
    · rcases hlibc with ⟨hne, hr, -⟩ | ⟨-, ⟨e, hr⟩, -⟩
      · exact absurd (Except.ok.inj (hr.symm.trans hok)) hne
      · cases hr.symm.trans hok
    · rcases hlibc with ⟨hne, -, hk⟩ | ⟨-, -, hk⟩
      · have hk' : (resolveQtype c cache env name qtype).2.1 (lower name, qtype) =
            some (env.libc, env.now + dnsCacheTtl) := by
          rw [show (resolveQtype c cache env name qtype).2.1 = _ from hk, Function.update_self]
        rw [hk'] at hcached
        exact absurd (congrArg Prod.fst (Option.some.inj hcached)) hne
      · rw [show (resolveQtype c cache env name qtype).2.1 = cache from hk] at hcached
        simp only [hcached, Option.filter_some, decide_eq_true_eq] at hcache
        rw [if_pos ht] at hcache
        cases hcache
  · obtain ⟨name', hname⟩ := List.exists_mem_of_ne_nil _ (candidateNames_ne_nil c name)
    have hlen : answers c env name qtype ≠ [] := by
      intro hnil
      have := congrArg List.length hnil
      simp only [answers, List.length_mapIdx, List.length_nil, List.length_eq_zero_iff] at this
      rw [this] at hname
      cases hname
    obtain ⟨a, ha⟩ := List.exists_mem_of_ne_nil _ hlen
    cases (hnone a ha).symm.trans (hall a ha)
  · have hlibc := hgives libc
    rw [hsame] at hlibc
    rcases hlibc with ⟨hne, hr, -⟩ | ⟨heq, hr, -⟩
    · exact ⟨fun _ => hr, fun heq => absurd heq hne⟩
    · exact ⟨fun hne => absurd heq hne, fun _ => hr⟩

end Cases

/-- One nameserver, and a search list that makes `a` into `a.x` and `a`. -/
def shortName : Config :=
  { resolvers := [.ip (.inet [10, 0, 0, 53])], search := [[120]], ndots := 1 }

/-- The nameserver says that there is no such name. -/
def nxdomain : Datagram :=
  { sender := ⟨.inet [10, 0, 0, 53], 53⟩
    data := [0, 0, 0x81, 0x83, 0, 0, 0, 0, 0, 0, 0, 0] }

/-- The first candidate name does not exist; `second` is what comes for the other one. -/
def lookupShort (second : List Datagram) : Env :=
  { now := 0, txn := fun _ => 0, replies := fun i _ => if i = 0 then [nxdomain] else second
    libc := [.inet [192, 0, 2, 1]] }

end Stackweave.Monkey.DnsNegative
