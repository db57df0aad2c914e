import Kernway.DnsName

namespace Kernway.Dns

def typeA : UInt16 := 1

def typeAaaa : UInt16 := 28

def typeCname : UInt16 := 5

def typeOpt : UInt16 := 41

def classIn : UInt16 := 1

def ednsUdpSize : UInt16 := 1232

def RecordType.code : RecordType → UInt16
  | a => typeA
  | aaaa => typeAaaa

inductive IpAddr
  | v4 (octets : { bytes : Bytes // bytes.length = 4 })
  | v6 (octets : { bytes : Bytes // bytes.length = 16 })
  deriving DecidableEq

structure ResolvedAddr where
  ip : IpAddr
  ttl : UInt32
  deriving DecidableEq

structure Response where
  id : UInt16
  truncated : Bool
  rcode : UInt8
  addresses : List ResolvedAddr
  deriving DecidableEq

/-- `u16::to_be_bytes`. -/
def beBytes (n : UInt16) : Bytes := [(n >>> 8).toUInt8, n.toUInt8]

def encodeQueryInner (id : UInt16) (name : Text) (qtype : UInt16) (edns : Option UInt16) :
    Except DnsError Bytes := do
  let arcount : UInt16 := if edns.isSome then 1 else 0
  let header := beBytes id ++ beBytes 0x0100 ++ beBytes 1 ++ beBytes 0 ++ beBytes 0 ++
    beBytes arcount
  let question ← encodeName name
  let opt := match edns with
    | some udp => 0 :: beBytes typeOpt ++ beBytes udp ++ [0, 0, 0, 0] ++ beBytes 0
    | none => []
  return header ++ question ++ beBytes qtype ++ beBytes classIn ++ opt

def encodeQuery (id : UInt16) (name : Text) (qtype : UInt16) : Except DnsError Bytes :=
  encodeQueryInner id name qtype none

def encodeQueryEdns (id : UInt16) (name : Text) (qtype udpPayload : UInt16) :
    Except DnsError Bytes :=
  encodeQueryInner id name qtype (some udpPayload)

def readU8 (buf : Bytes) (pos : Nat) : Except DnsError (UInt8 × Nat) :=
  match buf[pos]? with
  | some b => .ok (b, pos + 1)
  | none => .error .truncated

def readU16 (buf : Bytes) (pos : Nat) : Except DnsError (UInt16 × Nat) := do
  let (hi, pos) ← readU8 buf pos
  let (lo, pos) ← readU8 buf pos
  return (hi.toUInt16 <<< 8 ||| lo.toUInt16, pos)

def readU32 (buf : Bytes) (pos : Nat) : Except DnsError (UInt32 × Nat) := do
  let (hi, pos) ← readU16 buf pos
  let (lo, pos) ← readU16 buf pos
  return (hi.toUInt32 <<< 16 ||| lo.toUInt32, pos)

def take (buf : Bytes) (pos n : Nat) : Except DnsError (Bytes × Nat) :=
  if buf.length < pos + n then .error .truncated else .ok ((buf.drop pos).take n, pos + n)

def skipName (buf : Bytes) (pos : Nat) : Except DnsError Nat := do
  let (_, pos) ← readName buf pos
  return pos

/-- The loop of `parse_response` over the question section. -/
def skipQuestions (buf : Bytes) (pos : Nat) : Nat → Except DnsError Nat
  | 0 => .ok pos
  | count + 1 => do
    let pos ← skipName buf pos
    let (_, pos) ← readU16 buf pos
    let (_, pos) ← readU16 buf pos
    skipQuestions buf pos count

/-- The address of a record of a type with its data, if it is one. -/
def addressOf (rtype : UInt16) (ttl : UInt32) (rdata : Bytes) : Option ResolvedAddr :=
  if rtype = typeA then if h : rdata.length = 4 then some ⟨.v4 ⟨rdata, h⟩, ttl⟩ else none
  else if rtype = typeAaaa then if h : rdata.length = 16 then some ⟨.v6 ⟨rdata, h⟩, ttl⟩ else none
  else none

/-- The loop of `parse_response` over the answer section. -/
def readAnswers (buf : Bytes) (pos : Nat) : Nat → Except DnsError (List ResolvedAddr)
  | 0 => .ok []
  | count + 1 => do
    let pos ← skipName buf pos
    let (rtype, pos) ← readU16 buf pos
    let (_, pos) ← readU16 buf pos
    let (ttl, pos) ← readU32 buf pos
    let (rdlen, pos) ← readU16 buf pos
    let (rdata, pos) ← take buf pos rdlen.toNat
    let addresses ← readAnswers buf pos count
    return (addressOf rtype ttl rdata).toList ++ addresses

def parseResponse (buf : Bytes) : Except DnsError Response := do
  let (id, pos) ← readU16 buf 0
  let (flags, pos) ← readU16 buf pos
  let (qdcount, pos) ← readU16 buf pos
  let (ancount, pos) ← readU16 buf pos
  let (_, pos) ← readU16 buf pos
  let (_, pos) ← readU16 buf pos
  let truncated := (flags >>> 9) &&& 1 = 1
  let rcode := (flags &&& 0x000F).toUInt8
  let pos ← skipQuestions buf pos qdcount.toNat
  let addresses ← readAnswers buf pos ancount.toNat
  return ⟨id, truncated, rcode, addresses⟩

/-- What the network makes of a query: its random id, and the reply as far as it comes. -/
structure Exchange where
  id : UInt16
  reply : Except DnsError Bytes

def rcodeNxdomain : UInt8 := 3

/-- The checks of `query_one` and of `query_tcp` on the reply. -/
def accept (x : Exchange) : Except DnsError Response := do
  let reply ← x.reply
  let resp ← parseResponse reply
  if resp.id ≠ x.id then throw .mismatch
  else if resp.rcode = 0 then return resp
  else if resp.rcode = rcodeNxdomain then throw .nameNotFound
  else throw (.serverFailure resp.rcode)

def queryTcp (tcp : Exchange) (host : Text) (qtype : RecordType) :
    Except DnsError (List ResolvedAddr) := do
  let _ ← encodeQuery tcp.id host qtype.code
  let resp ← accept tcp
  return resp.addresses

def queryOne (udp tcp : Exchange) (host : Text) (qtype : RecordType) :
    Except DnsError (List ResolvedAddr) := do
  let _ ← encodeQueryEdns udp.id host qtype.code ednsUdpSize
  let resp ← accept udp
  if resp.truncated then queryTcp tcp host qtype
  else return resp.addresses

structure Question where
  name : Text
  qtype : UInt16
  qclass : UInt16

structure Record where
  owner : Text
  rtype : UInt16
  rclass : UInt16
  ttl : UInt32
  rdata : Bytes
  /-- Where the data stands in the packet. -/
  start : Nat

structure Message where
  id : UInt16
  flags : UInt16
  questions : List Question
  answers : List Record

def Record.address (r : Record) : Option ResolvedAddr := addressOf r.rtype r.ttl r.rdata

/-- The questions stand in the packet one after the other. -/
inductive QuestionsAt (buf : Bytes) : Nat → List Question → Nat → Prop
  | nil {pos : Nat} : QuestionsAt buf pos [] pos
  | cons {pos p p' p'' next : Nat} {q : Question} {questions : List Question} :
      readName buf pos = .ok (q.name, p) → readU16 buf p = .ok (q.qtype, p') →
      readU16 buf p' = .ok (q.qclass, p'') → QuestionsAt buf p'' questions next →
      QuestionsAt buf pos (q :: questions) next

/-- The records stand in the packet one after the other. -/
inductive RecordsAt (buf : Bytes) : Nat → List Record → Prop
  | nil {pos : Nat} : RecordsAt buf pos []
  | cons {pos p₁ p₂ p₃ p₄ p₅ : Nat} {rdlen : UInt16} {r : Record} {records : List Record} :
      readName buf pos = .ok (r.owner, p₁) → readU16 buf p₁ = .ok (r.rtype, p₂) →
      readU16 buf p₂ = .ok (r.rclass, p₃) → readU32 buf p₃ = .ok (r.ttl, p₄) →
      readU16 buf p₄ = .ok (rdlen, r.start) → take buf r.start rdlen.toNat = .ok (r.rdata, p₅) →
      RecordsAt buf p₅ records → RecordsAt buf pos (r :: records)

/-- The packet is a message with these questions and answers. -/
structure MessageAt (buf : Bytes) (m : Message) : Prop where
  id : readU16 buf 0 = .ok (m.id, 2)
  flags : readU16 buf 2 = .ok (m.flags, 4)
  qdcount : ∃ n, readU16 buf 4 = .ok (n, 6) ∧ n.toNat = m.questions.length
  ancount : ∃ n, readU16 buf 6 = .ok (n, 8) ∧ n.toNat = m.answers.length
  others : ∃ ns ar, readU16 buf 8 = .ok (ns, 10) ∧ readU16 buf 10 = .ok (ar, 12)
  sections : ∃ pos, QuestionsAt buf 12 m.questions pos ∧ RecordsAt buf pos m.answers

def Message.response (m : Message) : Response :=
  ⟨m.id, (m.flags >>> 9) &&& 1 = 1, (m.flags &&& 0x000F).toUInt8, m.answers.filterMap Record.address⟩

theorem readU16_pos {buf : Bytes} {pos p : Nat} {v : UInt16} (h : readU16 buf pos = .ok (v, p)) :
    p = pos + 2 := by
  have hnext : ∀ {pos p : Nat} {b : UInt8}, readU8 buf pos = .ok (b, p) → p = pos + 1 := by
    intro pos p b hb
    unfold readU8 at hb
    split at hb
    next =>
      cases hb
      rfl
    next => cases hb
  simp only [readU16, bind_eq_ok_iff, Prod.exists] at h
  obtain ⟨hi, p₁, hhi, lo, p₂, hlo, heq⟩ := h
  cases heq
  have h₁ := hnext hhi
  have h₂ := hnext hlo
  omega

theorem skipQuestions_eq_ok_iff {buf : Bytes} {pos count next : Nat} :
    skipQuestions buf pos count = .ok next ↔
      ∃ questions, questions.length = count ∧ QuestionsAt buf pos questions next := by
  induction count generalizing pos with
  | zero =>
    rw [skipQuestions]
    constructor
    · intro h
      cases h
      exact ⟨[], rfl, .nil⟩
    · intro ⟨questions, hlen, h⟩
      cases h with
      | nil => rfl
      | cons => cases hlen
  | succ count ih =>
    simp only [skipQuestions, skipName, bind_eq_ok_iff, Prod.exists, ih]
    constructor
    · intro ⟨p, ⟨name, p₁, hname, heq⟩, qtype, p₂, hqtype, qclass, p₃, hqclass, questions, hlen, h⟩
      cases heq
      exact ⟨⟨name, qtype, qclass⟩ :: questions, congrArg (· + 1) hlen,
        .cons hname hqtype hqclass h⟩
    · intro ⟨questions, hlen, h⟩
      cases h with
      | nil => cases hlen
      | cons hname hqtype hqclass h =>
        exact ⟨_, ⟨_, _, hname, rfl⟩, _, _, hqtype, _, _, hqclass, _, Nat.succ.inj hlen, h⟩

theorem readAnswers_eq_ok_iff {buf : Bytes} {pos count : Nat} {addresses : List ResolvedAddr} :
    readAnswers buf pos count = .ok addresses ↔
      ∃ records, records.length = count ∧ RecordsAt buf pos records ∧
        addresses = records.filterMap Record.address := by
  induction count generalizing pos addresses with
  | zero =>
    rw [readAnswers]
    constructor
    · intro h
      cases h
      exact ⟨[], rfl, .nil, rfl⟩
    · intro ⟨records, hlen, h, heq⟩
      rw [List.length_eq_zero_iff.mp hlen] at heq
      rw [heq]
      rfl
  | succ count ih =>
    simp only [readAnswers, skipName, bind_eq_ok_iff, Prod.exists, ih]
    constructor
    · intro ⟨p, ⟨owner, p₁, howner, heq⟩, rtype, p₂, hrtype, rclass, p₃, hrclass, ttl, p₄, httl,
        rdlen, p₅, hrdlen, rdata, p₆, hrdata, rest, ⟨records, hlen, h, hrest⟩, haddr⟩
      cases heq
      cases haddr
      let r : Record := ⟨owner, rtype, rclass, ttl, rdata, p₅⟩
      refine ⟨r :: records, congrArg (· + 1) hlen,
        .cons (r := r) howner hrtype hrclass httl hrdlen hrdata h, ?_⟩
      rw [List.filterMap_cons, hrest]
      show (r.address).toList ++ _ = _
      cases r.address with
      | none => rfl
      | some a => rfl
    · intro ⟨records, hlen, h, heq⟩
      cases h with
      | nil => cases hlen
      | @cons _ p₁ p₂ p₃ p₄ p₅ rdlen r records howner hrtype hrclass httl hrdlen hrdata h =>
        refine ⟨p₁, ⟨_, _, howner, rfl⟩, _, _, hrtype, _, _, hrclass, _, _, httl, _, _, hrdlen, _, _,
          hrdata, _, ⟨records, Nat.succ.inj hlen, h, rfl⟩, ?_⟩
        rw [heq, List.filterMap_cons]
        show Except.ok ((r.address).toList ++ _) = _
        cases r.address with
        | none => rfl
        | some a => rfl

/-- What is parsed is what the message says. -/
theorem parseResponse_eq_ok_iff {buf : Bytes} {resp : Response} :
    parseResponse buf = .ok resp ↔ ∃ m, MessageAt buf m ∧ resp = m.response := by
  simp only [parseResponse, bind_eq_ok_iff, Prod.exists, skipQuestions_eq_ok_iff,
    readAnswers_eq_ok_iff]
  constructor
  · intro ⟨id, p₁, hid, flags, p₂, hflags, qd, p₃, hqd, an, p₄, han, ns, p₅, hns, ar, p₆, har,
      pos, ⟨questions, hq, hquestions⟩, addresses, ⟨records, hr, hrecords, haddr⟩, heq⟩
    cases heq
    have h₁ := readU16_pos hid
    subst h₁
    have h₂ := readU16_pos hflags
    subst h₂
    have h₃ := readU16_pos hqd
    subst h₃
    have h₄ := readU16_pos han
    subst h₄
    have h₅ := readU16_pos hns
    subst h₅
    have h₆ := readU16_pos har
    subst h₆
    refine ⟨⟨id, flags, questions, records⟩, ⟨hid, hflags, ⟨qd, hqd, hq.symm⟩, ⟨an, han, hr.symm⟩,
      ⟨ns, ar, hns, har⟩, ⟨pos, hquestions, hrecords⟩⟩, ?_⟩
    rw [haddr]
    rfl
  · intro ⟨m, ⟨hid, hflags, ⟨qd, hqd, hq⟩, ⟨an, han, hr⟩, ⟨ns, ar, hns, har⟩, pos, hquestions,
      hrecords⟩, heq⟩
    exact ⟨_, _, hid, _, _, hflags, _, _, hqd, _, _, han, _, _, hns, _, _, har, pos,
      ⟨_, hq.symm, hquestions⟩, _, ⟨_, hr.symm, hrecords, rfl⟩, heq ▸ rfl⟩

theorem accept_eq_ok_iff {x : Exchange} {resp : Response} :
    accept x = .ok resp ↔ ∃ reply m, x.reply = .ok reply ∧ MessageAt reply m ∧ m.id = x.id ∧
      m.response.rcode = 0 ∧ resp = m.response := by
  simp only [accept, bind_eq_ok_iff, parseResponse_eq_ok_iff]
  constructor
  · intro ⟨reply, hreply, resp', ⟨m, hm, heq⟩, h⟩
    subst heq
    split at h
    next => cases h
    next hid =>
      split at h
      next hrcode =>
        cases h
        exact ⟨reply, m, hreply, hm, not_not.mp hid, hrcode, rfl⟩
      next =>
        split at h
        next => cases h
        next => cases h
  · intro ⟨reply, m, hreply, hm, hid, hrcode, heq⟩
    refine ⟨reply, hreply, m.response, ⟨m, hm, rfl⟩, ?_⟩
    have hsame : ¬ m.response.id ≠ x.id := not_not.mpr hid
    rw [if_neg hsame, if_pos hrcode, heq]
    rfl

/-- The address is of the family that a query of the type asks for. -/
def IpAddr.answers (qtype : RecordType) : IpAddr → Bool
  | v4 _ => qtype = .a
  | v6 _ => qtype = .aaaa

/-- The reply carries the id of its query and no error, and is a message in whose answer section
each address stands as the data of a record. None of the addresses of the queried type is left out. -/
structure Accepted (x : Exchange) (qtype : RecordType) (addresses : List ResolvedAddr)
    (reply : Bytes) (m : Message) : Prop where
  received : x.reply = .ok reply
  stands : MessageAt reply m
  id : m.id = x.id
  rcode : m.response.rcode = 0
  record : ∀ a ∈ addresses, ∃ r ∈ m.answers, r.address = some a
  complete : addresses.filter (·.ip.answers qtype) =
    (m.answers.filterMap Record.address).filter (·.ip.answers qtype)

theorem accepted_of_accept {x : Exchange} {resp : Response} (qtype : RecordType)
    (h : accept x = .ok resp) :
    ∃ reply m, Accepted x qtype resp.addresses reply m ∧ resp = m.response := by
  obtain ⟨reply, m, hreply, hm, hid, hrcode, rfl⟩ := accept_eq_ok_iff.1 h
  refine ⟨reply, m, ⟨hreply, hm, hid, hrcode, ?_, rfl⟩, rfl⟩
  intro a ha
  exact List.mem_filterMap.mp ha

theorem queryTcp_accepted {tcp : Exchange} {host : Text} {qtype : RecordType}
    {addresses : List ResolvedAddr} (h : queryTcp tcp host qtype = .ok addresses) :
    ∃ reply m, Accepted tcp qtype addresses reply m := by
  simp only [queryTcp, bind_eq_ok_iff] at h
  obtain ⟨_, _, resp, hresp, heq⟩ := h
  cases heq
  obtain ⟨reply, m, haccepted, -⟩ := accepted_of_accept qtype hresp
  exact ⟨reply, m, haccepted⟩

/-- The owner name is the queried name, or an alias leads from there to it. -/
inductive Reached (reply : Bytes) (m : Message) (name : Text) : Text → Prop
  | asked {owner : Text} : eqIgnoreAsciiCase owner name = true → Reached reply m name owner
  | alias {owner target : Text} {next : Nat} {r : Record} : r ∈ m.answers → r.rtype = typeCname →
      r.rclass = classIn → Reached reply m name r.owner →
      readName reply r.start = .ok (target, next) → eqIgnoreAsciiCase owner target = true →
      Reached reply m name owner

/-- The addresses belong to the question. -/
structure Belongs (reply : Bytes) (m : Message) (host : Text) (qtype : RecordType)
    (addresses : List ResolvedAddr) : Prop where
  question : ∃ q, m.questions = [q] ∧ eqIgnoreAsciiCase q.name (stripSuffix '.' host) = true ∧
    q.qtype = qtype.code ∧ q.qclass = classIn
  record : ∀ a ∈ addresses, ∃ r ∈ m.answers, r.address = some a ∧ r.rclass = classIn ∧
    r.rtype = qtype.code ∧ Reached reply m (stripSuffix '.' host) r.owner

/-- A reply without a question, and with one record of another name and class. -/
def strayReply : Bytes :=
  [0, 7, 128, 0, 0, 0, 0, 1, 0, 0, 0, 0] ++
    [4, 101, 118, 105, 108, 0, 0, 1, 0, 3, 0, 0, 0, 60, 0, 4, 6, 6, 6, 6]

def strayAddress : ResolvedAddr := ⟨.v4 ⟨[6, 6, 6, 6], rfl⟩, 60⟩

theorem queryOne_strayReply :
    queryOne ⟨7, .ok strayReply⟩ ⟨8, .error .truncated⟩ "shop.example".toList .a =
      .ok [strayAddress] := by
  decide +kernel

end Kernway.Dns
