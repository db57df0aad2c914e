import Kernway.Str

namespace Kernway.Dns

inductive DnsError
  | truncated
  | malformedName
  | nameTooLong
  | mismatch
  | nameNotFound
  | serverFailure (rcode : UInt8)
  | noAddresses
  | io (message : Text)
  deriving DecidableEq

inductive RecordType
  | a
  | aaaa
  deriving DecidableEq

/-- What the cache of the shard holds of a name and a type, within its time to live. -/
inductive Cached (Addr : Type)
  | hit (ips : List Addr)
  | negative

structure Resolver (Server : Type) where
  servers : List Server
  attempts : Nat
  search : List Text
  ndots : UInt8

/-- What the cache holds and the servers answer of each name and record type, attempt by attempt. A
record is its address and its time to live. -/
structure Network (Server Addr : Type) where
  cached : RecordType → Text → Option (Cached Addr)
  query : RecordType → Text → Nat → Server → Except DnsError (List (Addr × UInt32))

namespace Resolver

variable {Server Addr : Type} (r : Resolver Server) (net : Network Server Addr)

def candidates (host : Text) : List Text :=
  if host.getLast? = some '.' then [host.dropLast]
  else if r.search = [] then [host]
  else
    let suffixed := r.search.map fun d => host ++ '.' :: d
    if r.ndots.toNat ≤ host.count '.' then host :: suffixed else suffixed ++ [host]

/-- The queries of `resolve_cached`, to one server after the other. -/
def queryAll (qtype : RecordType) (name : Text) :
    List (Nat × Server) → DnsError → Except DnsError (List Addr)
  | [], last => .error last
  | (attempt, server) :: queries, _ =>
    match net.query qtype name attempt server with
    | .ok [] => queryAll qtype name queries .noAddresses
    | .ok addrs => .ok (addrs.map Prod.fst)
    | .error .nameNotFound => .error .nameNotFound
    | .error e => queryAll qtype name queries e

def resolveCached (qtype : RecordType) (name : Text) : Except DnsError (List Addr) :=
  match net.cached qtype name with
  | some (.hit ips) => .ok ips
  | some .negative => .error .nameNotFound
  | none =>
    if r.servers = [] then .error (.io "no nameservers configured".toList)
    else
      let rounds := (List.range r.attempts).flatMap fun attempt => r.servers.map (attempt, ·)
      queryAll net qtype name rounds .noAddresses

/-- The loop of `lookup_family` over the candidates that are left. -/
def tryCandidates (qtype : RecordType) : List Text → DnsError → Except DnsError (List Addr)
  | [], last => .error last
  | candidate :: rest, _ =>
    match r.resolveCached net qtype candidate with
    | .ok [] => tryCandidates qtype rest .noAddresses
    | .ok ips => .ok ips
    | .error e => tryCandidates qtype rest e

def lookupFamily (host : Text) (qtype : RecordType) : Except DnsError (List Addr) :=
  r.tryCandidates net qtype (r.candidates host) .noAddresses

def lookup (host : Text) : Except DnsError (List Addr) :=
  match r.lookupFamily net host .a with
  | .ok (ip :: ips) => .ok (ip :: ips)
  | .error .nameNotFound => .error .nameNotFound
  | _ => r.lookupFamily net host .aaaa

/-- The first candidate with addresses of a type, and its addresses. -/
def First (qtype : RecordType) (host : Text) (ips : List Addr) : Prop :=
  ∃ before candidate after, r.candidates host = before ++ candidate :: after ∧
    r.resolveCached net qtype candidate = .ok ips ∧ ips ≠ [] ∧
    ∀ c ∈ before, ∀ found, r.resolveCached net qtype c = .ok found → found = []

/-- No candidate has addresses of a type. -/
def Lacks (qtype : RecordType) (host : Text) : Prop :=
  ∀ c ∈ r.candidates host, ∀ found, r.resolveCached net qtype c = .ok found → found = []

/-- The last candidate does not exist, by the query for a type. -/
def LastNotFound (qtype : RecordType) (host : Text) : Prop :=
  ∃ before candidate, r.candidates host = before ++ [candidate] ∧
    r.resolveCached net qtype candidate = .error .nameNotFound

section Candidates

variable {r : Resolver Server} {net : Network Server Addr} {qtype : RecordType}

theorem candidates_ne_nil (host : Text) : r.candidates host ≠ [] := by
  unfold candidates
  split
  next => exact List.cons_ne_nil _ _
  next =>
    split
    next => exact List.cons_ne_nil _ _
    next =>
      dsimp only
      split
      next => exact List.cons_ne_nil _ _
      next => exact List.append_ne_nil_of_right_ne_nil _ (List.cons_ne_nil _ _)

theorem tryCandidates_lacking {candidate : Text}
    (h : ∀ found, r.resolveCached net qtype candidate = .ok found → found = []) (rest : List Text)
    (last : DnsError) : ∃ e, r.tryCandidates net qtype (candidate :: rest) last =
      r.tryCandidates net qtype rest e ∧
      (r.resolveCached net qtype candidate = .error .nameNotFound ↔ e = .nameNotFound) := by
  rw [tryCandidates]
  cases hanswer : r.resolveCached net qtype candidate with
  | error e =>
    refine ⟨e, rfl, ?_⟩
    rw [Except.error.injEq]
  | ok found =>
    obtain rfl := h found hanswer
    exact ⟨.noAddresses, rfl, by simp⟩

theorem tryCandidates_first {before after : List Text} {candidate : Text} {ips : List Addr}
    (hbefore : ∀ c ∈ before, ∀ found, r.resolveCached net qtype c = .ok found → found = [])
    (hanswer : r.resolveCached net qtype candidate = .ok ips) (hips : ips ≠ []) (last : DnsError) :
    r.tryCandidates net qtype (before ++ candidate :: after) last = .ok ips := by
  induction before generalizing last with
  | nil =>
    cases ips with
    | nil => exact absurd rfl hips
    | cons ip ips =>
      rw [List.nil_append, tryCandidates, hanswer]
  | cons c before ih =>
    obtain ⟨e, hnext, -⟩ :=
      tryCandidates_lacking (hbefore c (List.mem_cons_self ..)) (before ++ candidate :: after) last
    rw [List.cons_append, hnext]
    exact ih (fun c' hc' => hbefore c' (List.mem_cons_of_mem c hc')) e

/-- Where no candidate has addresses, the answer to the last one stands for them all. -/
theorem tryCandidates_last {before : List Text} {candidate : Text}
    (hbefore : ∀ c ∈ before ++ [candidate], ∀ found,
      r.resolveCached net qtype c = .ok found → found = []) (last : DnsError) :
    ∃ e, r.tryCandidates net qtype (before ++ [candidate]) last = .error e ∧
      (r.resolveCached net qtype candidate = .error .nameNotFound ↔ e = .nameNotFound) := by
  induction before generalizing last with
  | nil =>
    obtain ⟨e, hnext, hlast⟩ := tryCandidates_lacking (hbefore candidate (by simp)) [] last
    exact ⟨e, hnext, hlast⟩
  | cons c before ih =>
    obtain ⟨e, hnext, -⟩ :=
      tryCandidates_lacking (hbefore c (List.mem_cons_self ..)) (before ++ [candidate]) last
    rw [List.cons_append, hnext]
    exact ih (fun c' hc' => hbefore c' (List.mem_cons_of_mem c hc')) e

end Candidates

section Lookup

variable {r : Resolver Server} {net : Network Server Addr} {qtype : RecordType} {host : Text}

theorem lookupFamily_first {ips : List Addr} (h : r.First net qtype host ips) :
    r.lookupFamily net host qtype = .ok ips := by
  obtain ⟨before, candidate, after, hcandidates, hanswer, hips, hbefore⟩ := h
  rw [lookupFamily, hcandidates]
  exact tryCandidates_first hbefore hanswer hips .noAddresses

theorem lookupFamily_lacks (h : r.Lacks net qtype host) :
    ∃ e, r.lookupFamily net host qtype = .error e ∧
      (r.LastNotFound net qtype host ↔ e = .nameNotFound) := by
  have hcandidates := (List.dropLast_append_getLast (r.candidates_ne_nil host)).symm
  generalize (r.candidates host).dropLast = before at hcandidates
  generalize (r.candidates host).getLast _ = candidate at hcandidates
  unfold Lacks at h
  rw [hcandidates] at h
  obtain ⟨e, hresult, hlast⟩ := tryCandidates_last h .noAddresses
  refine ⟨e, ?_, ?_⟩
  · rw [lookupFamily, hcandidates]
    exact hresult
  · rw [← hlast]
    constructor
    · rintro ⟨before', candidate', heq, hanswer⟩
      rw [hcandidates] at heq
      obtain ⟨-, hlast'⟩ := List.append_inj' heq rfl
      rw [List.singleton_inj.mp hlast']
      exact hanswer
    · exact fun hanswer => ⟨before, candidate, hcandidates, hanswer⟩

theorem first_or_lacks (r : Resolver Server) (net : Network Server Addr) (qtype : RecordType)
    (host : Text) : (∃ ips, r.First net qtype host ips) ∨ r.Lacks net qtype host := by
  unfold First Lacks
  induction r.candidates host with
  | nil => exact .inr fun c hc => absurd hc List.not_mem_nil
  | cons candidate rest ih =>
    by_cases hfound : ∃ ips, r.resolveCached net qtype candidate = .ok ips ∧ ips ≠ []
    · obtain ⟨ips, hanswer, hips⟩ := hfound
      exact .inl ⟨ips, [], candidate, rest, rfl, hanswer, hips,
        fun c hc => absurd hc List.not_mem_nil⟩
    · have hlacks : ∀ found, r.resolveCached net qtype candidate = .ok found → found = [] := by
        intro found hanswer
        by_contra hips
        exact hfound ⟨found, hanswer, hips⟩
      rcases ih with ⟨ips, before, c, after, hrest, hanswer, hips, hbefore⟩ | hrest
      · refine .inl ⟨ips, candidate :: before, c, after, ?_, hanswer, hips, ?_⟩
        · rw [hrest, List.cons_append]
        · intro c' hc'
          rcases List.mem_cons.mp hc' with rfl | hc'
          · exact hlacks
          · exact hbefore c' hc'
      · refine .inr fun c hc => ?_
        rcases List.mem_cons.mp hc with rfl | hc
        · exact hlacks
        · exact hrest c hc

theorem lookup_first {ips : List Addr} (h : r.First net .a host ips) :
    r.lookup net host = .ok ips := by
  have hfamily := lookupFamily_first h
  obtain ⟨-, -, -, -, -, hips, -⟩ := h
  rw [lookup, hfamily]
  cases ips with
  | nil => exact absurd rfl hips
  | cons ip ips => rfl

theorem lookup_lacks (h : r.Lacks net .a host) (hlast : ¬ r.LastNotFound net .a host) :
    r.lookup net host = r.lookupFamily net host .aaaa := by
  obtain ⟨e, hfamily, hnotFound⟩ := lookupFamily_lacks h
  have he : e ≠ .nameNotFound := fun heq => hlast (hnotFound.mpr heq)
  rw [lookup, hfamily]
  cases e with
  | nameNotFound => exact absurd rfl he
  | _ => rfl

end Lookup

/-- The addresses of the first candidate that has an `A` record, or else those of the first that
has an `AAAA` record, unless the last candidate is not found as an `A` record; and a name is not
found only where the last candidate is not. -/
theorem lookup_prefers_a (r : Resolver Server) (net : Network Server Addr) (host : Text) :
    (∀ ips, r.First net .a host ips → r.lookup net host = .ok ips) ∧
    (∀ ips, r.Lacks net .a host → ¬ r.LastNotFound net .a host → r.First net .aaaa host ips →
      r.lookup net host = .ok ips) ∧
    (r.lookup net host = .error .nameNotFound →
      r.LastNotFound net .a host ∨ r.LastNotFound net .aaaa host) := by
  refine ⟨fun ips => lookup_first, fun ips hlacks hlast hfirst => ?_, fun hnone => ?_⟩
  · rw [lookup_lacks hlacks hlast]
    exact lookupFamily_first hfirst
  · rcases first_or_lacks r net .a host with ⟨ips, hfirst⟩ | hlacks
    · rw [lookup_first hfirst] at hnone
      cases hnone
    · by_cases hlast : r.LastNotFound net .a host
      · exact .inl hlast
      · rw [lookup_lacks hlacks hlast] at hnone
        rcases first_or_lacks r net .aaaa host with ⟨ips, hfirst⟩ | hlacks'
        · rw [lookupFamily_first hfirst] at hnone
          cases hnone
        · obtain ⟨e, hfamily, hnotFound⟩ := lookupFamily_lacks hlacks'
          rw [hfamily] at hnone
          exact .inr (hnotFound.mpr (Except.error.inj hnone))

/-- A candidate is answered with name-not-found, or without addresses, for both types. -/
def Absent (candidate : Text) : Prop :=
  ∀ qtype, r.resolveCached net qtype candidate = .error .nameNotFound ∨
    r.resolveCached net qtype candidate = .error .noAddresses ∨
    r.resolveCached net qtype candidate = .ok []

/-- The addresses of a candidate, those of its `A` records before those of its `AAAA` records. -/
def addressesOf (candidate : Text) : List Addr :=
  match r.resolveCached net .a candidate with
  | .ok (ip :: ips) => ip :: ips
  | _ => (r.resolveCached net .aaaa candidate).toOption.getD []

/-- A lookup gives the addresses of the first candidate that has any, and finds no name only where
no candidate was found. -/
def Finds (host : Text) : Prop :=
  (∀ before candidate after, r.candidates host = before ++ candidate :: after →
    (∀ c ∈ before, r.Absent net c) → r.addressesOf net candidate ≠ [] →
    r.lookup net host = .ok (r.addressesOf net candidate)) ∧
  (r.lookup net host = .error .nameNotFound → ∀ c ∈ r.candidates host, ∃ qtype,
    r.resolveCached net qtype c = .error .nameNotFound)

def corpResolver : Resolver Unit := ⟨[()], 2, ["corp".toList], 1⟩

/-- The first candidate has an `AAAA` record, the second one an `A` record. -/
def mixedNetwork : Network Unit Nat where
  cached _ _ := none
  query qtype name _ _ :=
    if qtype = .aaaa ∧ name = "web.corp".toList then .ok [(6, 60)]
    else if qtype = .a ∧ name = "web".toList then .ok [(4, 60)]
    else .ok []

theorem not_finds : ¬ ∀ (r : Resolver Unit) (net : Network Unit Nat) host, r.Finds net host := by
  intro hall
  have hfirst := (hall corpResolver mixedNetwork "web".toList).1 [] "web.corp".toList
    ["web".toList] (by decide) (fun c hc => absurd hc List.not_mem_nil) (by decide)
  have haddresses : (corpResolver.lookup mixedNetwork "web".toList).toOption =
      some (corpResolver.addressesOf mixedNetwork "web.corp".toList) := by
    rw [hfirst]
    rfl
  exact absurd haddresses (by decide)

end Resolver

end Kernway.Dns
