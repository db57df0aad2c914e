import Kernway.HttpResponse

namespace Kernway

/-- What can be read of a file, and whether an error or the end comes after it. The loss of the
blocking pool counts as an error. -/
structure FileBytes where
  bytes : Bytes
  fails : Bool

/-- One `read` at a position: the system gives at least one of the bytes that are there, and not
more than are wanted. -/
def FileBytes.read (file : FileBytes) (pos want given : Nat) : Option Bytes :=
  if pos < file.bytes.length then some ((file.bytes.drop pos).take (max 1 (min given want)))
  else if file.fails then none
  else some []

/-- The loop over `read` that fills a chunk: what it read, and the reads so far. -/
@[semireducible] def FileBytes.fill (file : FileBytes) (given : Nat → Nat) (pos k want : Nat) :
    Option (Bytes × Nat) :=
  if _hw : want = 0 then some ([], k)
  else match file.read pos want (given k) with
    | none => none
    | some [] => some ([], k + 1)
    | some (b :: bs) => (file.fill given (pos + (bs.length + 1)) (k + 1)
        (want - (bs.length + 1))).map fun next => (b :: bs ++ next.1, next.2)
termination_by want
decreasing_by omega

/-- The peer's side of the connection: which of the `write_all` calls fail, and after how many
bytes. -/
structure Socket where
  fails : Nat → Option Nat

/-- What has been written to a connection, and in how many calls. -/
structure Wire where
  sent : Bytes := []
  calls : Nat := 0

def Socket.writeAll (socket : Socket) (wire : Wire) (bytes : Bytes) : Except Wire Wire :=
  match socket.fails wire.calls with
  | none => .ok ⟨wire.sent ++ bytes, wire.calls + 1⟩
  | some n => .error ⟨wire.sent ++ bytes.take n, wire.calls + 1⟩

/-- The files that a server can open, how much the system gives at each read, and the size of the
chunks, which the builder keeps positive. -/
structure Host where
  «open» : Bytes → Option FileBytes
  given : Nat → Nat
  fileChunk : Nat
  fileChunk_pos : 0 < fileChunk

variable (host : Host) (socket : Socket)

/-- The copy loop of `stream_file`, from a position on. -/
@[semireducible] def copyFile (file : FileBytes) (pos k remaining : Nat) (wire : Wire) :
    Except Wire Wire :=
  if _hr : remaining = 0 then .ok wire
  else match file.fill host.given pos k (min remaining host.fileChunk) with
    | none => .ok wire
    | some ([], _) => .ok wire
    | some (b :: bs, k) =>
      match socket.writeAll wire (b :: bs) with
      | .error wire => .error wire
      | .ok wire => copyFile file (pos + (bs.length + 1)) k (remaining - (bs.length + 1)) wire
termination_by remaining
decreasing_by omega

def streamFile (path : Bytes) (range : Option (UInt64 × UInt64)) (len : UInt64) (wire : Wire) :
    Except Wire Wire :=
  let start := match range with
    | some (s, _) => s
    | none => 0
  let total := match range with
    | some (s, e) => e - s
    | none => len
  match host.open path with
  | none => .ok wire
  | some file => copyFile host socket file start.toNat 0 total.toNat wire

/-- The loop over a streamed body from its answer `k` on, `none` while it goes on. -/
def copyStream (source : BodyStream) : Nat → Nat → Wire → Option (Except Wire Wire)
  | 0, _, _ => none
  | fuel + 1, k, wire =>
    match source.next k with
    | .error _ => some (.error wire)
    | .ok none => some (.ok wire)
    | .ok (some chunk) =>
      match socket.writeAll wire chunk with
      | .error wire => some (.error wire)
      | .ok wire => copyStream source fuel (k + 1) wire

/-- `write_response`, `none` while a streamed body goes on. -/
def writeResponse (response : Response) (connection : Connection) (isHead : Bool) (fuel : Nat)
    (wire : Wire) : Option (Except Wire Wire) := do
  let head ← encodeHead response connection response.body.len
  if isHead then return socket.writeAll wire head
  else match response.body with
    | .file path len range =>
      match socket.writeAll wire head with
      | .error wire => return .error wire
      | .ok wire => return streamFile host socket path range len wire
    | .empty | .bytes _ _ =>
      let bytes ← encodeResponseWith response connection
      return socket.writeAll wire bytes
    | .stream _ source =>
      match socket.writeAll wire head with
      | .error wire => return .error wire
      | .ok wire => copyStream socket source fuel 0 wire

variable {host : Host} {socket : Socket}

theorem writeAll_ok {wire wire' : Wire} {bytes : Bytes}
    (h : socket.writeAll wire bytes = .ok wire') : wire'.sent = wire.sent ++ bytes := by
  unfold Socket.writeAll at h
  split at h
  next =>
    cases h
    rfl
  next => cases h

/-- A peer that takes everything. -/
def Socket.willing : Socket := ⟨fun _ => none⟩

theorem writeAll_willing (wire : Wire) (bytes : Bytes) :
    Socket.willing.writeAll wire bytes = .ok ⟨wire.sent ++ bytes, wire.calls + 1⟩ := rfl

theorem FileBytes.read_some {file : FileBytes} {pos want given : Nat} {b : UInt8} {bs : Bytes}
    (hw : want ≠ 0) (h : file.read pos want given = some (b :: bs)) :
    b :: bs <+: file.bytes.drop pos ∧ bs.length + 1 ≤ want := by
  unfold FileBytes.read at h
  split at h
  next =>
    rw [← Option.some.inj h]
    refine ⟨List.take_prefix _ _, ?_⟩
    have hlen := congrArg List.length (Option.some.inj h)
    rw [List.length_take, List.length_cons] at hlen
    omega
  next =>
    split at h
    next => cases h
    next => cases h

theorem FileBytes.read_there {file : FileBytes} {pos : Nat} (h : pos < file.bytes.length)
    (want given : Nat) : ∃ b bs, file.read pos want given = some (b :: bs) := by
  rw [FileBytes.read, if_pos h]
  refine ⟨_, _, congrArg some (List.cons_head_tail (l := (file.bytes.drop pos).take _) ?_).symm⟩
  rw [← List.length_pos_iff, List.length_take, List.length_drop]
  omega

theorem prefix_drop {bytes first more : Bytes} {pos : Nat} (hfirst : first <+: bytes.drop pos)
    (hmore : more <+: bytes.drop (pos + first.length)) : first ++ more <+: bytes.drop pos := by
  obtain ⟨rest, hrest⟩ := hfirst
  rw [← List.drop_drop, ← hrest, List.drop_left] at hmore
  obtain ⟨last, rfl⟩ := hmore
  exact ⟨last, by rw [List.append_assoc, hrest]⟩

/-- A chunk is of the file, and it is whole where the file has that much. -/
theorem FileBytes.fill_spec (file : FileBytes) (given : Nat → Nat) (pos k want : Nat) :
    (∀ chunk k', file.fill given pos k want = some (chunk, k') →
      chunk <+: file.bytes.drop pos ∧ chunk.length ≤ want) ∧
    (pos + want ≤ file.bytes.length →
      ∃ chunk k', file.fill given pos k want = some (chunk, k') ∧ chunk.length = want) := by
  induction hw : want using Nat.strongRecOn generalizing pos k want with
  | _ n ih =>
    subst hw
    unfold FileBytes.fill
    by_cases hzero : want = 0
    · subst hzero
      refine ⟨fun chunk k' h => ?_, fun _ => ⟨[], k, rfl, rfl⟩⟩
      cases h
      exact ⟨List.nil_prefix, Nat.le_refl 0⟩
    rw [dif_neg hzero]
    constructor
    · intro chunk k' h
      split at h
      next => cases h
      next =>
        cases h
        exact ⟨List.nil_prefix, Nat.zero_le _⟩
      next b bs hread =>
        obtain ⟨⟨more, k''⟩, hmore, heq⟩ := Option.map_eq_some_iff.mp h
        obtain ⟨rfl, rfl⟩ := Prod.mk.inj heq
        obtain ⟨hfront, hle⟩ := FileBytes.read_some hzero hread
        obtain ⟨hnext, hlen⟩ := (ih _ (by omega) _ _ _ rfl).1 more _ hmore
        refine ⟨prefix_drop hfront hnext, ?_⟩
        simp only [List.length_append, List.length_cons]
        omega
    · intro hthere
      have hmore : pos < file.bytes.length := by omega
      obtain ⟨b, bs, hread⟩ := FileBytes.read_there hmore want (given k)
      obtain ⟨hfront, hle⟩ := FileBytes.read_some hzero hread
      obtain ⟨more, k', hmore, hlen⟩ := (ih (want - (bs.length + 1)) (by omega)
        (pos + (bs.length + 1)) (k + 1) _ rfl).2 (by omega)
      rw [hread]
      dsimp only
      rw [hmore]
      refine ⟨b :: bs ++ more, k', rfl, ?_⟩
      rw [List.length_append, List.length_cons]
      omega

/-- What is copied is of the file, and it is all that remains where the file has that much. -/
theorem copyFile_ok {file : FileBytes} {pos k remaining : Nat} {wire wire' : Wire}
    (h : copyFile host socket file pos k remaining wire = .ok wire') :
    ∃ part, wire'.sent = wire.sent ++ part ∧ part <+: file.bytes.drop pos ∧
      part.length ≤ remaining ∧
      (pos + remaining ≤ file.bytes.length → part.length = remaining) := by
  induction hr : remaining using Nat.strongRecOn generalizing pos k remaining wire with
  | _ n ih =>
    subst hr
    rw [copyFile] at h
    by_cases hzero : remaining = 0
    · subst hzero
      rw [dif_pos rfl] at h
      cases h
      exact ⟨[], by simp, List.nil_prefix, Nat.le_refl 0, fun _ => rfl⟩
    rw [dif_neg hzero] at h
    have hchunk := host.fileChunk_pos
    obtain ⟨hspec, hthere⟩ :=
      FileBytes.fill_spec file host.given pos k (min remaining host.fileChunk)
    have hstop : (∀ b bs k', file.fill host.given pos k (min remaining host.fileChunk) ≠
        some (b :: bs, k')) → ¬ pos + remaining ≤ file.bytes.length := by
      intro hnone hle
      obtain ⟨chunk, k', hfill, hlen⟩ := hthere (by omega)
      cases chunk with
      | nil => simp only [List.length_nil] at hlen; omega
      | cons b bs => exact hnone b bs k' hfill
    split at h
    next hfill =>
      cases h
      exact ⟨[], by simp, List.nil_prefix, Nat.zero_le _, fun hle =>
        absurd hle (hstop fun b bs k' heq => by rw [hfill] at heq; cases heq)⟩
    next k' hfill =>
      cases h
      exact ⟨[], by simp, List.nil_prefix, Nat.zero_le _, fun hle =>
        absurd hle (hstop fun b bs k'' heq => by rw [hfill] at heq; cases heq)⟩
    next b bs k' hfill =>
      obtain ⟨hfront, hlen⟩ := hspec _ _ hfill
      split at h
      next => cases h
      next wire₁ hwrite =>
        rw [List.length_cons] at hlen
        obtain ⟨part, hsent, hpart, hle, hall⟩ := ih _ (by omega) h rfl
        refine ⟨b :: bs ++ part, ?_, prefix_drop hfront hpart, ?_, fun hthere => ?_⟩
        · rw [hsent, writeAll_ok hwrite, List.append_assoc]
        · simp only [List.length_append, List.length_cons]
          omega
        · have := hall (by omega)
          simp only [List.length_append, List.length_cons]
          omega

theorem copyFile_willing (file : FileBytes) (pos k remaining : Nat) (wire : Wire) :
    ∃ wire', copyFile host .willing file pos k remaining wire = .ok wire' := by
  induction hr : remaining using Nat.strongRecOn generalizing pos k remaining wire with
  | _ n ih =>
    subst hr
    rw [copyFile]
    split
    next => exact ⟨wire, rfl⟩
    next hzero =>
      split
      next => exact ⟨wire, rfl⟩
      next => exact ⟨wire, rfl⟩
      next b bs k' hfill =>
        rw [writeAll_willing]
        exact ih _ (by omega) _ _ _ _ rfl

namespace BodyStream

/-- From its answer `k` on the source gives these chunks and then ends. -/
def Yields (source : BodyStream) : Nat → List Bytes → Prop
  | k, [] => source.next k = .ok none
  | k, chunk :: chunks => source.next k = .ok (some chunk) ∧ source.Yields (k + 1) chunks

end BodyStream

theorem copyStream_ok {source : BodyStream} {fuel k : Nat} {wire wire' : Wire}
    (h : copyStream socket source fuel k wire = some (.ok wire')) :
    ∃ chunks, source.Yields k chunks ∧ wire'.sent = wire.sent ++ chunks.flatten := by
  induction fuel generalizing k wire with
  | zero => cases h
  | succ fuel ih =>
    unfold copyStream at h
    split at h
    next => cases h
    next hend =>
      cases h
      exact ⟨[], hend, by simp⟩
    next chunk hchunk =>
      split at h
      next => cases h
      next wire₁ hwrite =>
        obtain ⟨chunks, hyields, hsent⟩ := ih h
        refine ⟨chunk :: chunks, ⟨hchunk, hyields⟩, ?_⟩
        rw [hsent, writeAll_ok hwrite, List.flatten_cons, List.append_assoc]

theorem copyStream_willing {source : BodyStream} {k : Nat} {chunks : List Bytes}
    (h : source.Yields k chunks) (wire : Wire) :
    ∃ fuel wire', copyStream .willing source fuel k wire = some (.ok wire') ∧
      wire'.sent = wire.sent ++ chunks.flatten := by
  induction chunks generalizing k wire with
  | nil =>
    refine ⟨1, wire, ?_, by simp⟩
    rw [copyStream, show source.next k = .ok none from h]
  | cons chunk chunks ih =>
    obtain ⟨hchunk, hrest⟩ := h
    obtain ⟨fuel, wire', hcopy, hsent⟩ := ih hrest ⟨wire.sent ++ chunk, wire.calls + 1⟩
    refine ⟨fuel + 1, wire', ?_, ?_⟩
    · rw [copyStream, hchunk]
      exact hcopy
    · rw [hsent, List.flatten_cons, List.append_assoc]

/-- The body that a response announces is there to be sent: the interval of a file lies in what can
be read of it, and a stream ends, if it does, after as many bytes. -/
def Body.Delivers (host : Host) : Body → Prop
  | empty | bytes _ _ => True
  | file path len range =>
    (Body.file path len range).len = 0 ∨ ∃ file, host.open path = some file ∧
      (range.elim 0 Prod.fst).toNat + (Body.file path len range).len.toNat ≤ file.bytes.length
  | stream len source => ∀ chunks, source.Yields 0 chunks → chunks.flatten.length = len.toNat

/-- After the head stand as many bytes as it announces; the answer to a HEAD has none. -/
def Framed (response : Response) (connection : Connection) (isHead : Bool)
    (before after : Wire) : Prop :=
  ∃ head body, encodeHead response connection response.body.len = some head ∧
    after.sent = before.sent ++ head ++ body ∧
    body.length = if isHead then 0 else response.body.len.toNat

theorem encodeHead_some (response : Response) (connection : Connection) (length : UInt64) :
    ∃ head, encodeHead response connection length = some head := by
  unfold encodeHead
  rw [itoa_eq, itoa_eq]
  exact ⟨_, rfl⟩

theorem streamFile_eq (path : Bytes) (range : Option (UInt64 × UInt64)) (len : UInt64)
    (wire : Wire) : streamFile host socket path range len wire =
      match host.open path with
      | none => .ok wire
      | some file => copyFile host socket file (range.elim 0 Prod.fst).toNat 0
          (Body.file path len range).len.toNat wire := by
  cases range <;> rfl

theorem streamFile_ok {path : Bytes} {range : Option (UInt64 × UInt64)} {len : UInt64}
    {wire wire' : Wire} (hdelivers : (Body.file path len range).Delivers host)
    (h : streamFile host socket path range len wire = .ok wire') :
    ∃ part, wire'.sent = wire.sent ++ part ∧
      part.length = (Body.file path len range).len.toNat := by
  rw [streamFile_eq] at h
  split at h
  next hclosed =>
    cases h
    rcases hdelivers with hzero | ⟨file, hopen, -⟩
    · exact ⟨[], by simp, by rw [hzero]; rfl⟩
    · rw [hclosed] at hopen
      cases hopen
  next file hopen =>
    obtain ⟨part, hsent, -, hle, hall⟩ := copyFile_ok h
    refine ⟨part, hsent, ?_⟩
    rcases hdelivers with hzero | ⟨file', hopen', hfits⟩
    · rw [hzero] at hle ⊢
      exact Nat.le_zero.mp hle
    · obtain rfl := Option.some.inj (hopen.symm.trans hopen')
      exact hall hfits

theorem streamFile_short {path : Bytes} {range : Option (UInt64 × UInt64)} {len : UInt64}
    (hshort : ¬ (Body.file path len range).Delivers host) (wire : Wire) :
    ∃ wire' part, streamFile host .willing path range len wire = .ok wire' ∧
      wire'.sent = wire.sent ++ part ∧
      part.length ≠ (Body.file path len range).len.toNat := by
  simp only [Body.Delivers, not_or, not_exists, not_and, Nat.not_le] at hshort
  obtain ⟨hzero, hfile⟩ := hshort
  have hpos : (Body.file path len range).len.toNat ≠ 0 := fun h =>
    hzero (UInt64.toNat_inj.mp h)
  rw [streamFile_eq]
  split
  next => exact ⟨wire, [], rfl, by simp, fun h => hpos h.symm⟩
  next file hopen =>
    obtain ⟨wire', hcopy⟩ := copyFile_willing file _ 0 _ wire
    obtain ⟨part, hsent, ⟨rest, hrest⟩, -, -⟩ := copyFile_ok hcopy
    refine ⟨wire', part, hcopy, hsent, ?_⟩
    have hlen := congrArg List.length hrest
    rw [List.length_append, List.length_drop] at hlen
    have := hfile file hopen
    omega

theorem encodeResponseWith_body {response : Response} {connection : Connection} {head : Bytes}
    (h : encodeHead response connection response.body.len = some head) :
    encodeResponseWith response connection = some (head ++ response.bodyBytes) := by
  rw [encodeResponseWith, h]
  rfl

theorem writeResponse_framed {response : Response} {connection : Connection} {isHead : Bool}
    {fuel : Nat} {wire wire' : Wire}
    (hdelivers : isHead = true ∨ response.body.Delivers host)
    (h : writeResponse host socket response connection isHead fuel wire = some (.ok wire')) :
    Framed response connection isHead wire wire' := by
  obtain ⟨head, hhead⟩ := encodeHead_some response connection response.body.len
  unfold writeResponse at h
  rw [hhead] at h
  simp only [Option.bind_eq_bind, Option.bind_some] at h
  by_cases hisHead : isHead = true
  · rw [if_pos hisHead] at h
    refine ⟨head, [], hhead, ?_, by simp [hisHead]⟩
    rw [writeAll_ok (Option.some.inj h), List.append_nil]
  rw [if_neg hisHead] at h
  replace hdelivers := hdelivers.resolve_left hisHead
  have hannounced : ∀ body : Bytes, body.length = response.body.len.toNat →
      body.length = if isHead = true then 0 else response.body.len.toNat := fun body hlen => by
    rw [if_neg hisHead, hlen]
  have hmemory : ∀ {wire' : Wire}, (do
      let bytes ← encodeResponseWith response connection
      return socket.writeAll wire bytes) = some (.ok wire') →
      response.bodyBytes.length = response.body.len.toNat →
      Framed response connection isHead wire wire' := by
    intro wire' hwrite hlen
    rw [encodeResponseWith_body hhead] at hwrite
    refine ⟨head, response.bodyBytes, hhead, ?_, hannounced _ hlen⟩
    rw [writeAll_ok (Option.some.inj hwrite), List.append_assoc]
  cases hbody : response.body with
  | empty =>
    rw [hbody] at h
    exact hmemory h (by simp [Response.bodyBytes, hbody, Body.len])
  | bytes bytes fits =>
    rw [hbody] at h
    refine hmemory h ?_
    simp only [Response.bodyBytes, hbody, Body.len, UInt64.toNat_ofNat']
    exact (Nat.mod_eq_of_lt fits).symm
  | file path len range =>
    rw [hbody] at h hdelivers
    dsimp only at h
    split at h
    next => cases h
    next wire₁ hwrite =>
      obtain ⟨part, hsent, hlen⟩ := streamFile_ok hdelivers (Option.some.inj h)
      refine ⟨head, part, hhead, by rw [hsent, writeAll_ok hwrite], hannounced part ?_⟩
      rw [hlen, hbody]
  | stream len source =>
    rw [hbody] at h hdelivers
    dsimp only at h
    split at h
    next => cases h
    next wire₁ hwrite =>
      obtain ⟨chunks, hyields, hsent⟩ := copyStream_ok h
      refine ⟨head, chunks.flatten, hhead, by rw [hsent, writeAll_ok hwrite], hannounced _ ?_⟩
      rw [hdelivers chunks hyields, hbody]
      rfl

theorem writeResponse_short {response : Response} (hshort : ¬ response.body.Delivers host)
    (connection : Connection) (wire : Wire) :
    ∃ fuel wire', writeResponse host .willing response connection false fuel wire =
      some (.ok wire') ∧ ¬ Framed response connection false wire wire' := by
  obtain ⟨head, hhead⟩ := encodeHead_some response connection response.body.len
  have hunframed : ∀ {wire' : Wire} {part : Bytes}, wire'.sent = wire.sent ++ head ++ part →
      part.length ≠ response.body.len.toNat →
      ¬ Framed response connection false wire wire' := by
    rintro wire' part hsent hne ⟨head', body, hhead', hsent', hlen⟩
    obtain rfl := Option.some.inj (hhead.symm.trans hhead')
    obtain rfl := List.append_cancel_left (hsent.symm.trans hsent')
    exact hne hlen
  unfold writeResponse
  rw [hhead]
  simp only [Option.bind_eq_bind, Option.bind_some, Bool.false_eq_true, if_false]
  cases hbody : response.body with
  | empty => exact absurd (by rw [hbody]; trivial) hshort
  | bytes bytes fits => exact absurd (by rw [hbody]; trivial) hshort
  | file path len range =>
    rw [hbody] at hshort hunframed
    obtain ⟨wire', part, hstream, hsent, hne⟩ := streamFile_short hshort
      ⟨wire.sent ++ head, wire.calls + 1⟩
    exact ⟨0, wire', congrArg some hstream, hunframed hsent hne⟩
  | stream len source =>
    rw [hbody] at hshort hunframed
    simp only [Body.Delivers, not_forall] at hshort
    obtain ⟨chunks, hyields, hne⟩ := hshort
    obtain ⟨fuel, wire', hcopy, hsent⟩ := copyStream_willing hyields
      ⟨wire.sent ++ head, wire.calls + 1⟩
    exact ⟨fuel, wire', hcopy, hunframed hsent hne⟩

end Kernway
