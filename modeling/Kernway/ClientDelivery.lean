import Kernway.ClientResponse

namespace Kernway.HttpClient

def Method.asStr : Method → Text
  | get => "GET".toList
  | post => "POST".toList
  | put => "PUT".toList
  | patch => "PATCH".toList
  | delete => "DELETE".toList
  | head => "HEAD".toList

def crlf : Text := ['\r', '\n']

def encodeRequest (req : Request) (keepAlive : Bool) (jar : Option Text) : Bytes :=
  encodeUtf8 (req.method.asStr ++ ' ' :: req.url.pathAndQuery ++ " HTTP/1.1".toList ++ crlf ++
    (req.encodedHeaders keepAlive jar).flatMap (fun field =>
      field.1 ++ ": ".toList ++ field.2 ++ crlf) ++ crlf) ++ req.body

/-- A connection, and how many bytes of the next request on it reach the server. Whether they do is
not known to the client: a request whose write fails may have arrived. -/
structure Link where
  conn : Conn
  received : Nat

structure Idle where
  link : Link
  sinceMs : Nat

def poolIdleTimeoutMs : Nat := 20000

/-- `ConnPool::take` of the connections of an origin, the one put back last first. -/
def take (nowMs : Nat) (idle : List Idle) : Option Link :=
  (idle.find? fun entry => nowMs - entry.sinceMs < poolIdleTimeoutMs).map Idle.link

/-- What a request meets: the connections of its origin in the pool, the cookies of the jar, and
what comes of dialing. -/
structure Hop where
  idle : List Idle
  nowMs : Nat
  jar : Option Text
  dialed : Except HttpError Link

/-- A request, and the connections on which it was sent. -/
structure HopLog where
  request : Request
  hop : Hop
  links : List Link

def HopLog.bytes (d : HopLog) (keepAlive : Bool) : Bytes :=
  encodeRequest d.request keepAlive d.hop.jar

/-- How often the request was received as a whole. -/
def HopLog.times (d : HopLog) (keepAlive : Bool) : Nat :=
  d.links.countP fun link => (d.bytes keepAlive).length ≤ link.received

inductive SendError
  | http (e : HttpError)
  | url (e : UrlError)

section Loop

variable {α : Type} (answer : Conn → Except HttpError α)

/-- `dial_and_send` and `dial_head`. -/
def dial (hop : Hop) : Except HttpError α × List Link :=
  match hop.dialed with
  | .error e => (.error e, [])
  | .ok link => (answer link.conn, [link])

/-- The exchange of `roundtrip` and of `dial_and_stream`, and the connections that it used. -/
def exchangeOn (hop : Hop) : Except HttpError α × List Link :=
  match take hop.nowMs hop.idle with
  | none => dial answer hop
  | some link =>
    match answer link.conn with
    | .ok a => (.ok a, [link])
    | .error e =>
      if isStale e then ((dial answer hop).1, link :: (dial answer hop).2)
      else (.error e, [link])

variable (headOf : α → Head) (drain : α → Except HttpError Unit)

/-- The loop over the redirects; a call that is given up before a hop is one without the hop. -/
def sendLoop : Nat → Request → List Hop → Except SendError α × List HopLog
  | _, _, [] => (.error (.http .timeout), [])
  | redirects, req, hop :: hops =>
    let delivery : HopLog := ⟨req, hop, (exchangeOn answer hop).2⟩
    match (exchangeOn answer hop).1 with
    | .error e => (.error (.http e), [delivery])
    | .ok a =>
      match redirects with
      | 0 => (.ok a, [delivery])
      | redirects + 1 =>
        match redirectTarget req (headOf a) with
        | .error e => (.error (.url e), [delivery])
        | .ok none => (.ok a, [delivery])
        | .ok (some next) =>
          match drain a with
          | .error e => (.error (.http e), [delivery])
          | .ok () =>
            ((sendLoop redirects next hops).1, delivery :: (sendLoop redirects next hops).2)

end Loop

section

variable (decode : ContentEncoding → Bytes → Except Text Bytes)

/-- `send`, which reads every response as a whole. -/
def send (maxRedirects : Nat) (req : Request) (hops : List Hop) :
    Except SendError (Response × Bool × Conn) × List HopLog :=
  sendLoop (readResponse decode) (fun a => a.1.toHead) (fun _ => .ok ()) maxRedirects req hops

/-- The chunks of the body of a redirect, up to its end or to where the call is given up. -/
def drainBody (limit : Nat) : Nat → ResponseStream → Except HttpError Unit
  | 0, _ => .error .timeout
  | n + 1, stream =>
    match stream.chunk limit with
    | (_, .error e) => .error e
    | (_, .ok none) => .ok ()
    | (stream, .ok (some _)) => drainBody limit n stream

def sendStreaming (maxIdlePerHost maxRedirects limit chunks : Nat) (req : Request)
    (hops : List Hop) : Except SendError ResponseStream × List HopLog :=
  sendLoop (ResponseStream.new maxIdlePerHost) ResponseStream.head (drainBody limit chunks)
    maxRedirects req.forStreaming hops

/-- The exchange is that of `exchange`. -/
theorem exchangeOn_readResponse (hop : Hop) :
    (exchangeOn (readResponse decode) hop).1 = exchange decode
      ((take hop.nowMs hop.idle).map Link.conn) (hop.dialed.map Link.conn) := by
  have hdial : (dial (readResponse decode) hop).1 =
      hop.dialed.map Link.conn >>= readResponse decode := by
    unfold dial
    cases hop.dialed <;> rfl
  unfold exchangeOn exchange
  cases take hop.nowMs hop.idle with
  | none => exact hdial
  | some link =>
    dsimp only [Option.map_some]
    cases readResponse decode link.conn with
    | ok a => rfl
    | error e =>
      dsimp only
      split
      · exact hdial
      · rfl

end

section

variable {α : Type} {answer : Conn → Except HttpError α}

/-- The connection of the pool failed as a stale one does, and another was dialed. -/
def Retried (answer : Conn → Except HttpError α) (hop : Hop) (pooled fresh : Link) : Prop :=
  take hop.nowMs hop.idle = some pooled ∧
    (∃ e, answer pooled.conn = .error e ∧ isStale e = true) ∧ hop.dialed = .ok fresh

theorem dial_links (hop : Hop) : (dial answer hop).2 = hop.dialed.toOption.toList := by
  unfold dial
  cases hop.dialed <;> rfl

/-- A request is sent on two connections where it is retried, and else on one at most. -/
theorem exchangeOn_links (answer : Conn → Except HttpError α) (hop : Hop) :
    (∃ pooled fresh, Retried answer hop pooled fresh ∧
      (exchangeOn answer hop).2 = [pooled, fresh]) ∨
    (¬ ∃ pooled fresh, Retried answer hop pooled fresh) ∧ (exchangeOn answer hop).2.length ≤ 1 := by
  have hdial : hop.dialed.toOption.toList.length ≤ 1 := by
    cases hop.dialed <;> simp [Except.toOption]
  unfold exchangeOn
  split
  next htake =>
    refine .inr ⟨?_, ?_⟩
    · rintro ⟨pooled, fresh, hpooled, -⟩
      rw [htake] at hpooled
      cases hpooled
    · rw [dial_links]
      exact hdial
  next link htake =>
    split
    next a hanswer =>
      refine .inr ⟨?_, Nat.le_refl 1⟩
      rintro ⟨pooled, fresh, hpooled, ⟨e, he, -⟩, -⟩
      cases htake.symm.trans hpooled
      rw [hanswer] at he
      cases he
    next e hanswer =>
      split
      next hstale =>
        rw [dial_links]
        cases hdialed : hop.dialed with
        | ok fresh => exact .inl ⟨link, fresh, ⟨htake, ⟨e, hanswer, hstale⟩, hdialed⟩, rfl⟩
        | error _ =>
          refine .inr ⟨?_, Nat.le_refl 1⟩
          rintro ⟨pooled, fresh, -, -, hfresh⟩
          rw [hdialed] at hfresh
          cases hfresh
      next hstale =>
        refine .inr ⟨?_, Nat.le_refl 1⟩
        rintro ⟨pooled, fresh, hpooled, ⟨e', he', hstale'⟩, -⟩
        cases htake.symm.trans hpooled
        rw [hanswer] at he'
        cases he'
        exact hstale hstale'

/-- Every request of the loop was sent in an exchange, and the redirects are at most so many. -/
theorem sendLoop_log (answer : Conn → Except HttpError α) (headOf : α → Head)
    (drain : α → Except HttpError Unit) (maxRedirects : Nat) (req : Request) (hops : List Hop) :
    (sendLoop answer headOf drain maxRedirects req hops).2.length ≤ maxRedirects + 1 ∧
    ∀ d ∈ (sendLoop answer headOf drain maxRedirects req hops).2,
      d.hop ∈ hops ∧ d.links = (exchangeOn answer d.hop).2 := by
  induction hops generalizing maxRedirects req with
  | nil =>
    rw [sendLoop]
    exact ⟨Nat.zero_le _, nofun⟩
  | cons hop hops ih =>
    have hone : ∀ d ∈ [(⟨req, hop, (exchangeOn answer hop).2⟩ : HopLog)],
        d.hop ∈ hop :: hops ∧ d.links = (exchangeOn answer d.hop).2 :=
      List.forall_mem_singleton.mpr ⟨List.mem_cons_self .., rfl⟩
    have hlength : 1 ≤ maxRedirects + 1 := Nat.le_add_left 1 maxRedirects
    rw [sendLoop]
    split
    next => exact ⟨hlength, hone⟩
    next a _ =>
      split
      next => exact ⟨hlength, hone⟩
      next redirects =>
        split
        next => exact ⟨hlength, hone⟩
        next => exact ⟨hlength, hone⟩
        next next _ =>
          split
          next => exact ⟨hlength, hone⟩
          next =>
            obtain ⟨hrest, hlater⟩ := ih redirects next
            refine ⟨Nat.succ_le_succ hrest, List.forall_mem_cons.mpr ⟨?_, ?_⟩⟩
            · exact ⟨List.mem_cons_self .., rfl⟩
            · intro d hd
              exact ⟨List.mem_cons_of_mem hop (hlater d hd).1, (hlater d hd).2⟩

/-- Every request is received as a whole on two connections at most, and on two where it is retried
and both of them bring it. -/
def TwiceAtMost (answer : Conn → Except HttpError α) (keepAlive : Bool) (log : List HopLog) :
    Prop :=
  ∀ d ∈ log, d.times keepAlive ≤ 2 ∧ (1 < d.times keepAlive ↔
    ∃ pooled fresh, Retried answer d.hop pooled fresh ∧
      (d.bytes keepAlive).length ≤ pooled.received ∧ (d.bytes keepAlive).length ≤ fresh.received)

theorem Retried.unique {hop : Hop} {pooled fresh pooled' fresh' : Link}
    (h : Retried answer hop pooled fresh) (h' : Retried answer hop pooled' fresh') :
    pooled = pooled' ∧ fresh = fresh' := by
  have hpooled := h.1.symm.trans h'.1
  have hfresh := h.2.2.symm.trans h'.2.2
  exact ⟨Option.some.inj hpooled, Except.ok.inj hfresh⟩

theorem twiceAtMost_of_links {keepAlive : Bool} {log : List HopLog}
    (h : ∀ d ∈ log, d.links = (exchangeOn answer d.hop).2) : TwiceAtMost answer keepAlive log := by
  intro d hd
  have hlinks := h d hd
  unfold HopLog.times
  rw [hlinks]
  rcases exchangeOn_links answer d.hop with ⟨pooled, fresh, hretried, hboth⟩ | ⟨hnot, hone⟩
  · rw [hboth]
    have hcount : ∀ p : Link → Bool, [pooled, fresh].countP p ≤ 2 := fun p => List.countP_le_length
    refine ⟨hcount _, ?_⟩
    constructor
    · intro htwo
      have hall := List.countP_eq_length.mp (Nat.le_antisymm (hcount _) htwo)
      simp only [List.mem_cons, List.not_mem_nil, or_false, forall_eq_or_imp, forall_eq,
        decide_eq_true_eq] at hall
      exact ⟨pooled, fresh, hretried, hall.1, hall.2⟩
    · rintro ⟨pooled', fresh', hretried', hpooled, hfresh⟩
      obtain ⟨rfl, rfl⟩ := hretried.unique hretried'
      simp [hpooled, hfresh]
  · have hcount : (exchangeOn answer d.hop).2.countP
        (fun link => (d.bytes keepAlive).length ≤ link.received) ≤ 1 :=
      Nat.le_trans List.countP_le_length hone
    refine ⟨by omega, ?_⟩
    constructor
    · intro htwo
      omega
    · rintro ⟨pooled, fresh, hretried, -⟩
      exact absurd ⟨pooled, fresh, hretried⟩ hnot

end

/-- A call of `send` or `send_streaming` has a server receive the request of a hop, whatever its
method, at most twice: once on a connection of the pool that then fails as a stale one does, and
once on the one that is dialed for it. -/
theorem delivered_twice_at_most (decode : ContentEncoding → Bytes → Except Text Bytes)
    (keepAlive : Bool) (maxIdlePerHost maxRedirects limit chunks : Nat) (req : Request)
    (hops : List Hop) :
    ((send decode maxRedirects req hops).2.length ≤ maxRedirects + 1 ∧
      TwiceAtMost (readResponse decode) keepAlive (send decode maxRedirects req hops).2) ∧
    ((sendStreaming maxIdlePerHost maxRedirects limit chunks req hops).2.length ≤ maxRedirects + 1 ∧
      TwiceAtMost (ResponseStream.new maxIdlePerHost) keepAlive
        (sendStreaming maxIdlePerHost maxRedirects limit chunks req hops).2) := by
  have hsend := sendLoop_log (readResponse decode) (fun a => a.1.toHead) (fun _ => .ok ())
    maxRedirects req hops
  have hstreaming := sendLoop_log (ResponseStream.new maxIdlePerHost) ResponseStream.head
    (drainBody limit chunks) maxRedirects req.forStreaming hops
  constructor
  · exact ⟨hsend.1, twiceAtMost_of_links fun d hd => (hsend.2 d hd).2⟩
  · exact ⟨hstreaming.1, twiceAtMost_of_links fun d hd => (hstreaming.2 d hd).2⟩

def payment : Request where
  method := .post
  url := ⟨http, "pay.example".toList, 80, "/charge".toList⟩
  headers := []
  body := encodeUtf8 "amount=1".toList

/-- The pooled connection takes the request and is closed without an answer; the one dialed then
answers. -/
def closedAfterRequest : Hop where
  idle := [⟨⟨{ reads := [] }, 1000⟩, 0⟩]
  nowMs := 0
  jar := none
  dialed := .ok ⟨{ reads := [⟨encodeUtf8 "HTTP/1.1 204 N\r\nContent-Length: 0\r\n\r\n".toList,
    by decide⟩] }, 1000⟩

/-- A `POST` is received twice. -/
theorem payment_twice : payment.method = .post ∧
    (send (fun _ bytes => .ok bytes) 10 payment [closedAfterRequest]).2.map
      (fun d => d.times true) = [2] := by
  decide +kernel

end Kernway.HttpClient
