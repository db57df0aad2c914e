import Kernway.Reads
import Kernway.Resp
import Kernway.Runs

namespace Kernway.Redis

/-- The bytes read from a socket, and how many of them are parsed. -/
structure Connection where
  buf : Bytes := []
  pos : Nat := 0

namespace Connection

def unread (conn : Connection) : Bytes := conn.buf.drop conn.pos

/-- The position moved past a reply; a buffer that is read to its end is cleared. -/
def advance (conn : Connection) (used : Nat) : Connection :=
  if conn.pos + used = conn.buf.length then {} else { conn with pos := conn.pos + used }

def readReply (conn : Connection) (reads : List Chunk) :
    Except RedisError Value × Connection × List Chunk :=
  match if conn.pos < conn.buf.length then parse conn.unread else .ok none with
  | .error e => (.error e, conn, reads)
  | .ok (some (v, used)) => (.ok v, conn.advance used, reads)
  | .ok none =>
    match reads with
    | [] => (.error .closed, conn, [])
    | chunk :: reads => readReply { conn with buf := conn.buf ++ chunk.val } reads
termination_by structural reads

end Connection

/-- A reply as the server sends it, and what a command is to hear of it. -/
structure ServerReply where
  bytes : Bytes
  outcome : Except RedisError Value
  isReply : IsReply bytes outcome

/-- A connection with what its server answers in order, the commands written to it, and what they
have returned. -/
structure Link where
  conn : Connection := {}
  reads : List Chunk
  script : List ServerReply
  sent : Bytes := []
  results : List (Except RedisError Value) := []

def Link.command (link : Link) (args : List Bytes) : Link :=
  let (result, conn, reads) := link.conn.readReply link.reads
  { link with
    conn, reads, sent := link.sent ++ encodeCommand args, results := link.results ++ [result] }

/-- A connection just dialled; its server's replies arrive in any pieces, and anything after
them. -/
def Link.Fresh (link : Link) : Prop :=
  link.conn = {} ∧ link.sent = [] ∧ link.results = [] ∧
    ∃ tail, received link.reads = link.script.flatMap ServerReply.bytes ++ tail

/-- The idle connections, the one returned last in front, and those that tasks hold. -/
structure Pool where
  maxIdle : Nat
  idle : List Link := []
  held : Nat → Option Link := fun _ => none

def Pool.hold (pool : Pool) (task : Nat) (link : Option Link) : Pool :=
  { pool with held := fun t => if t = task then link else pool.held t }

def Pool.checkin (pool : Pool) (link : Link) : Pool :=
  if pool.idle.length < pool.maxIdle then { pool with idle := link :: pool.idle } else pool

inductive Event
  | checkout (task : Nat)
  | dial (task : Nat) (link : Link)
  | command (task : Nat) (args : List Bytes)
  | finish (task : Nat) (ok : Bool)

/-- A task takes a connection, sends commands on it, the `AUTH` of a fresh one among them, and hands
it back where its closure succeeds, drops it where that fails. A command that cannot be written
reads nothing. -/
inductive Pool.Step : Pool → Event → Pool → Prop
  | checkout {pool : Pool} {task : Nat} {link : Link} {idle : List Link} :
      pool.held task = none → pool.idle = link :: idle →
      Step pool (.checkout task) ({ pool with idle }.hold task (some link))
  | dial {pool : Pool} {task : Nat} {link : Link} :
      pool.held task = none → pool.idle = [] → link.Fresh →
      Step pool (.dial task link) (pool.hold task (some link))
  | command {pool : Pool} {task : Nat} {link : Link} {args : List Bytes} :
      pool.held task = some link →
      Step pool (.command task args) (pool.hold task (some (link.command args)))
  | finish {pool : Pool} {task : Nat} {link : Link} {ok : Bool} :
      pool.held task = some link →
      Step pool (.finish task ok)
        ((if ok then pool.checkin link else pool).hold task none)

def pools : System Pool Event where
  start pool := pool.idle = [] ∧ ∀ task, pool.held task = none
  step := Pool.Step

def Pool.Has (pool : Pool) (link : Link) : Prop :=
  link ∈ pool.idle ∨ ∃ task, pool.held task = some link

/-- Every command of the connection has returned the reply at its own place in the stream. -/
def Link.InStep (link : Link) : Prop :=
  ∀ (i : Nat) (reply : ServerReply) (result : Except RedisError Value), link.script[i]? = some reply → link.results[i]? = some result →
    result = reply.outcome

/-- The replies that the commands after an error reply are due are that same error. -/
def Link.Quiet (link : Link) : Prop :=
  ∀ (i j : Nat) (e : RedisError) (first later : ServerReply), i < j → j < link.results.length → link.script[i]? = some first →
    first.outcome = .error e → link.script[j]? = some later → later.outcome = .error e

/-- The parser is before an error reply, which it does not get past. -/
def Connection.Stuck (conn : Connection) (e : RedisError) : Prop :=
  conn.pos < conn.buf.length ∧ parse conn.unread = .error e

/-- What a connection has returned of its server's replies: each in turn up to the first error, and
that error from then on. -/
def Reading (conn : Connection) (reads : List Chunk) (tail : Bytes) :
    List ServerReply → List (Except RedisError Value) → Prop
  | script, [] => conn.pos ≤ conn.buf.length ∧
      conn.unread ++ received reads = script.flatMap ServerReply.bytes ++ tail
  | [], _ :: _ => True
  | reply :: script, result :: results =>
    match reply.outcome with
    | .ok v => result = .ok v ∧ Reading conn reads tail script results
    | .error e => (∀ r ∈ result :: results, r = .error e) ∧ conn.Stuck e

theorem reading_nil {conn : Connection} {reads : List Chunk} {tail : Bytes}
    {script : List ServerReply} : Reading conn reads tail script [] ↔
      conn.pos ≤ conn.buf.length ∧
        conn.unread ++ received reads = script.flatMap ServerReply.bytes ++ tail := by
  cases script <;> rfl

theorem parse_nil : parse [] = .ok none := parse_none rfl

theorem IsReply.ne_nil {bytes : Bytes} {outcome : Except RedisError Value}
    (h : IsReply bytes outcome) : bytes ≠ [] := by
  cases h <;> simp

/-- The loop, its test for unparsed bytes left out: there is no reply in none. -/
theorem readReply_eq (conn : Connection) (reads : List Chunk) :
    conn.readReply reads =
      match parse conn.unread with
      | .error e => (.error e, conn, reads)
      | .ok (some (v, used)) => (.ok v, conn.advance used, reads)
      | .ok none =>
        match reads with
        | [] => (.error .closed, conn, [])
        | chunk :: reads =>
          Connection.readReply { conn with buf := conn.buf ++ chunk.val } reads := by
  have htest : (if conn.pos < conn.buf.length then parse conn.unread else .ok none) =
      parse conn.unread := by
    split
    next => rfl
    next hlt => rw [Connection.unread, List.drop_eq_nil_of_le (Nat.le_of_not_lt hlt), parse_nil]
  cases reads <;> rw [Connection.readReply, htest]

theorem advance_unread {conn : Connection} {used : Nat} (hpos : conn.pos ≤ conn.buf.length)
    (hused : used ≤ conn.unread.length) :
    (conn.advance used).pos ≤ (conn.advance used).buf.length ∧
      (conn.advance used).unread = conn.unread.drop used := by
  rw [Connection.unread, List.length_drop] at hused
  unfold Connection.advance
  split
  next hall =>
    refine ⟨Nat.le_refl 0, ?_⟩
    rw [Connection.unread, Connection.unread, List.drop_drop, List.drop_eq_nil_of_le hall.ge]
    rfl
  next =>
    refine ⟨?_, (List.drop_drop ..).symm⟩
    dsimp only
    omega

theorem parse_before {conn : Connection} {e : RedisError} (h : parse conn.unread = .error e) :
    conn.pos < conn.buf.length := by
  by_contra hlt
  rw [Connection.unread, List.drop_eq_nil_of_le (Nat.le_of_not_lt hlt), parse_nil] at h
  cases h

/-- The next reply in the stream is what the command returns. The position passes it if it is a
value, and stays before it if it is an error. -/
def Returns (conn : Connection) (reads : List Chunk) (reply : ServerReply) (rest : Bytes) : Prop :=
  ∃ conn' reads', conn.readReply reads = (reply.outcome, conn', reads') ∧
    (∀ v, reply.outcome = .ok v →
      conn'.pos ≤ conn'.buf.length ∧ conn'.unread ++ received reads' = rest) ∧
    ∀ e, reply.outcome = .error e → conn'.Stuck e

/-- A reply that has arrived is returned, without a read. -/
theorem readReply_arrived {conn : Connection} {reads : List Chunk} {reply : ServerReply}
    {rest : Bytes} (hpos : conn.pos ≤ conn.buf.length)
    (h : conn.unread ++ received reads = reply.bytes ++ rest)
    (harrived : parse conn.unread ≠ .ok none) : Returns conn reads reply rest := by
  have hreply := parse_reply reply.isReply rest
  rw [← h] at hreply
  unfold Returns
  rw [readReply_eq]
  cases hparse : parse conn.unread with
  | error e =>
    rw [(parse_settled conn.unread).error hparse] at hreply
    cases houtcome : reply.outcome with
    | error e' =>
      rw [houtcome] at hreply
      cases hreply
      refine ⟨conn, reads, rfl, nofun, fun e heq => ?_⟩
      cases heq
      exact ⟨parse_before hparse, hparse⟩
    | ok v =>
      rw [houtcome] at hreply
      cases hreply
  | ok got =>
    cases got with
    | none => exact absurd hparse harrived
    | some got =>
      obtain ⟨v, used⟩ := got
      obtain ⟨hused, hext⟩ := (parse_settled conn.unread).some hparse
      rw [hext] at hreply
      cases houtcome : reply.outcome with
      | error e' =>
        rw [houtcome] at hreply
        cases hreply
      | ok v' =>
        rw [houtcome] at hreply
        cases hreply
        obtain ⟨hvalid, hunread⟩ := advance_unread hpos hused
        refine ⟨conn.advance reply.bytes.length, reads, rfl, fun _ _ => ⟨hvalid, ?_⟩, nofun⟩
        rw [hunread, ← List.drop_append_of_le_length hused, h, List.drop_left]

theorem readReply_next {conn : Connection} {reads : List Chunk} {reply : ServerReply}
    {rest : Bytes} (hpos : conn.pos ≤ conn.buf.length)
    (h : conn.unread ++ received reads = reply.bytes ++ rest) :
    Returns conn reads reply rest := by
  induction reads generalizing conn with
  | nil =>
    refine readReply_arrived hpos h fun hwaiting => ?_
    have hreply := parse_reply reply.isReply rest
    rw [← h, show received [] = [] from rfl, List.append_nil, hwaiting] at hreply
    cases houtcome : reply.outcome with
    | error e =>
      rw [houtcome] at hreply
      cases hreply
    | ok v =>
      rw [houtcome] at hreply
      cases hreply
  | cons chunk reads ih =>
    by_cases hwaiting : parse conn.unread = .ok none
    · have hgrown : (conn.buf ++ chunk.val).drop conn.pos = conn.unread ++ chunk.val :=
        List.drop_append_of_le_length hpos
      let grown : Connection := { conn with buf := conn.buf ++ chunk.val }
      have hpos' : grown.pos ≤ grown.buf.length := by
        rw [List.length_append]
        exact Nat.le_add_right_of_le hpos
      have hgrown' : grown.unread ++ received reads = reply.bytes ++ rest := by
        rw [← h, Connection.unread, hgrown, append_received_cons]
      have hnext := ih hpos' hgrown'
      unfold Returns at hnext ⊢
      rw [readReply_eq, hwaiting]
      exact hnext
    · exact readReply_arrived hpos h hwaiting

theorem readReply_stuck {conn : Connection} {e : RedisError} (h : conn.Stuck e)
    (reads : List Chunk) : conn.readReply reads = (.error e, conn, reads) := by
  rw [readReply_eq, h.2]

/-- A command goes on with the reading. -/
theorem Reading.command {conn conn' : Connection} {reads reads' : List Chunk} {tail : Bytes}
    {script : List ServerReply} {results : List (Except RedisError Value)}
    {result : Except RedisError Value} (h : Reading conn reads tail script results)
    (hread : conn.readReply reads = (result, conn', reads')) :
    Reading conn' reads' tail script (results ++ [result]) := by
  induction results generalizing script with
  | nil =>
    cases script with
    | nil => trivial
    | cons reply script =>
      obtain ⟨hpos, hbytes⟩ := h
      rw [List.flatMap_cons, List.append_assoc] at hbytes
      obtain ⟨conn₁, reads₁, hnext, hvalue, herror⟩ := readReply_next hpos hbytes
      rw [hread] at hnext
      cases hnext
      rw [List.nil_append]
      unfold Reading
      cases houtcome : reply.outcome with
      | ok v => exact ⟨rfl, reading_nil.2 (hvalue v houtcome)⟩
      | error e => exact ⟨by simp, herror e houtcome⟩
  | cons first results ih =>
    cases script with
    | nil => trivial
    | cons reply script =>
      unfold Reading at h
      rw [List.cons_append]
      unfold Reading
      cases houtcome : reply.outcome with
      | ok v =>
        rw [houtcome] at h
        exact ⟨h.1, ih h.2⟩
      | error e =>
        rw [houtcome] at h
        obtain ⟨hall, hstuck⟩ := h
        rw [readReply_stuck hstuck] at hread
        cases hread
        refine ⟨?_, hstuck⟩
        rw [← List.cons_append]
        intro r hr
        rcases List.mem_append.mp hr with hr | hr
        · exact hall r hr
        · exact List.mem_singleton.mp hr

/-- Commands return their own replies exactly as long as nothing but the same error is due after
the first error. -/
theorem Reading.inStep_iff {link : Link} {tail : Bytes}
    (h : Reading link.conn link.reads tail link.script link.results) :
    link.InStep ↔ link.Quiet := by
  unfold Link.InStep Link.Quiet
  generalize link.conn = conn, link.reads = reads, link.script = script,
    link.results = results at h
  induction results generalizing script with
  | nil => exact iff_of_true (by simp) (by simp)
  | cons result results ih =>
    cases script with
    | nil => exact iff_of_true (by simp) (by simp)
    | cons reply script =>
      unfold Reading at h
      cases houtcome : reply.outcome with
      | ok v =>
        rw [houtcome] at h
        obtain ⟨rfl, hrest⟩ := h
        constructor
        · intro hin i j e first later hij hj hfirst he hlater
          have hquiet := (ih script hrest).mp fun k r out hr hout => hin (k + 1) r out hr hout
          cases i with
          | zero =>
            obtain rfl := Option.some.inj hfirst
            rw [houtcome] at he
            cases he
          | succ i =>
            cases j with
            | zero => cases hij
            | succ j =>
              exact hquiet i j e first later (Nat.lt_of_succ_lt_succ hij)
                (Nat.lt_of_succ_lt_succ hj) hfirst he hlater
        · intro hquiet i r out hr hout
          have hin := (ih script hrest).mpr fun i j e first later hij hj hfirst he hlater =>
            hquiet (i + 1) (j + 1) e first later (Nat.succ_lt_succ hij) (Nat.succ_lt_succ hj)
              hfirst he hlater
          cases i with
          | zero =>
            obtain rfl := Option.some.inj hr
            obtain rfl := Option.some.inj hout
            exact houtcome.symm
          | succ i => exact hin i r out hr hout
      | error e =>
        rw [houtcome] at h
        have hall : ∀ (i : Nat) (out : Except RedisError Value),
            (result :: results)[i]? = some out → out = .error e := fun i out hout =>
          h.1 out (List.mem_of_getElem? hout)
        constructor
        · intro hin i j e' first later hij hj hfirst he hlater
          have hi : i < (result :: results).length := Nat.lt_trans hij hj
          have hsame := hall i _ (List.getElem?_eq_getElem hi)
          rw [hin i first _ hfirst (List.getElem?_eq_getElem hi), he] at hsame
          rw [hsame, ← hin j later _ hlater (List.getElem?_eq_getElem hj)]
          exact hall j _ (List.getElem?_eq_getElem hj)
        · intro hquiet i r out hr hout
          rw [hall i out hout]
          cases i with
          | zero =>
            obtain rfl := Option.some.inj hr
            exact houtcome.symm
          | succ i =>
            exact (hquiet 0 (i + 1) e reply r (Nat.succ_pos i)
              (List.getElem?_eq_some_iff.mp hout).1 rfl houtcome hr).symm

/-- A connection of the pool. -/
def Link.Sound (link : Link) : Prop :=
  ∃ tail, Reading link.conn link.reads tail link.script link.results

theorem Link.Fresh.sound {link : Link} (h : link.Fresh) : link.Sound := by
  obtain ⟨hconn, -, hresults, tail, hreads⟩ := h
  refine ⟨tail, ?_⟩
  rw [hresults, reading_nil, hconn]
  exact ⟨Nat.le_refl 0, hreads⟩

theorem Link.Sound.command {link : Link} (h : link.Sound) (args : List Bytes) :
    (link.command args).Sound := by
  obtain ⟨tail, hreading⟩ := h
  exact ⟨tail, hreading.command rfl⟩

theorem Pool.has_hold {pool : Pool} {task : Nat} {link : Option Link} {l : Link}
    (h : (pool.hold task link).Has l) : pool.Has l ∨ link = some l := by
  rcases h with hidle | ⟨t, ht⟩
  · exact .inl (.inl hidle)
  · unfold Pool.hold at ht
    dsimp only at ht
    split at ht
    next => exact .inr ht
    next => exact .inl (.inr ⟨t, ht⟩)

theorem Pool.has_checkin {pool : Pool} {link l : Link} (h : (pool.checkin link).Has l) :
    pool.Has l ∨ l = link := by
  unfold Pool.checkin at h
  split at h
  next =>
    rcases h with hidle | hheld
    · rcases List.mem_cons.mp hidle with rfl | hidle
      · exact .inr rfl
      · exact .inl (.inl hidle)
    · exact .inl (.inr hheld)
  next => exact .inl h

def Pool.Sound (pool : Pool) : Prop := ∀ link, pool.Has link → link.Sound

theorem Pool.Step.sound {pool pool' : Pool} {event : Event} (h : pool.Step event pool')
    (hsound : pool.Sound) (link : Link) (hhas : pool'.Has link) :
    link.Sound := by
  cases h with
  | checkout hheld hidle =>
    rcases Pool.has_hold hhas with (hmem | hheld) | hlink
    · exact hsound link (.inl (by rw [hidle]; exact List.mem_cons_of_mem _ hmem))
    · exact hsound link (.inr hheld)
    · cases hlink
      exact hsound _ (.inl (by rw [hidle]; exact List.mem_cons_self))
  | dial hheld hidle hfresh =>
    rcases Pool.has_hold hhas with hhas | hlink
    · exact hsound link hhas
    · cases hlink
      exact hfresh.sound
  | command hheld =>
    rcases Pool.has_hold hhas with hhas | hlink
    · exact hsound link hhas
    · cases hlink
      exact (hsound _ (.inr ⟨_, hheld⟩)).command _
  | @finish _ _ ok hheld =>
    rcases Pool.has_hold hhas with hhas | hlink
    · cases ok with
      | false => exact hsound link hhas
      | true =>
        rcases Pool.has_checkin hhas with hhas | rfl
        · exact hsound link hhas
        · exact hsound _ (.inr ⟨_, hheld⟩)
    · cases hlink

theorem reachable_sound {pool : Pool} (h : pools.Reachable pool) (link : Link)
    (hhas : pool.Has link) : link.Sound := by
  have hinv : pool.Sound := by
    refine System.Reach.invariant ?_ ?_ h
    · rintro pool ⟨hidle, hheld⟩ link (hmem | ⟨task, hlink⟩)
      · rw [hidle] at hmem
        cases hmem
      · rw [hheld] at hlink
        cases hlink
    · intro pool event pool' hsound _ hstep
      exact Pool.Step.sound hstep hsound
  exact hinv link hhas

/-- In every run, whoever borrows the connections and however the replies arrive, the commands of a
connection return their own replies exactly as long as nothing but the same error is due after an
error reply. -/
theorem reachable_inStep_iff {pool : Pool} (h : pools.Reachable pool) {link : Link} (hhas : pool.Has link) :
    link.InStep ↔ link.Quiet := by
  obtain ⟨tail, hreading⟩ := reachable_sound h link hhas
  exact hreading.inStep_iff

def errReply : ServerReply where
  bytes := 45 :: [69, 82, 82] ++ [13, 10]
  outcome := .error (.server "ERR".toList)
  isReply := .error (by decide) (by decide)

def okReply : ServerReply where
  bytes := 43 :: [79, 75] ++ [13, 10]
  outcome := .ok (.simple "OK".toList)
  isReply := .simple (by decide) (by decide)

/-- An error and the reply of the next command, come in one read. -/
def errLink : Link where
  reads := [⟨errReply.bytes ++ okReply.bytes, by decide⟩]
  script := [errReply, okReply]

def errLinkUsed : Link := (errLink.command [[71, 69, 84]]).command [[80, 73, 78, 71]]

def errPool : Pool :=
  (((⟨16, [], fun _ => none⟩ : Pool).hold 0 (some errLink)).hold 0
    (some (errLink.command [[71, 69, 84]]))).hold 0 (some errLinkUsed)

theorem errPool_reachable : pools.Reachable errPool := by
  have hstart : pools.Reachable ⟨16, [], fun _ => none⟩ := .start ⟨rfl, fun _ => rfl⟩
  have hfresh : errLink.Fresh := ⟨rfl, rfl, rfl, [], rfl⟩
  have hdial := hstart.step trivial
    (Pool.Step.dial (rfl : _ = none) rfl hfresh : pools.step _ (.dial 0 errLink) _)
  have hfirst := hdial.step trivial
    (Pool.Step.command rfl : pools.step _ (.command 0 [[71, 69, 84]]) _)
  exact hfirst.step trivial
    (Pool.Step.command rfl : pools.step _ (.command 0 [[80, 73, 78, 71]]) _)

theorem errPool_has : errPool.Has errLinkUsed := .inr ⟨0, rfl⟩

theorem reachable_inStep_iff_errPool : errLinkUsed.InStep ↔ errLinkUsed.Quiet :=
  reachable_inStep_iff errPool_reachable errPool_has

/-- The command after an error is answered with the error again. -/
theorem not_inStep : ¬ ∀ pool, pools.Reachable pool → ∀ link, pool.Has link → link.InStep := by
  intro hall
  obtain ⟨tail, hreading⟩ := reachable_sound errPool_reachable errLinkUsed errPool_has
  have hquiet := hreading.inStep_iff.mp (hall _ errPool_reachable _ errPool_has)
  have hlater := hquiet 0 1 _ errReply okReply (by decide) (Nat.lt_succ_self 1) rfl rfl rfl
  cases hlater

end Kernway.Redis
