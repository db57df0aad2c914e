import Kernway.HttpRequest

namespace Kernway.Spool

/-- The files on disk, by their paths. -/
abbrev Files := Text → Option Bytes

inductive CreateOutcome
  | created
  | failed
  | gone

/-- A failed write has put the first `kept` bytes into the file; `gone` is the blocking pool. -/
inductive WriteOutcome
  | wrote
  | failed (kept : Nat)
  | gone

/-- A read of no bytes is the end of the connection. -/
inductive ReadOutcome
  | read (data : Bytes)
  | failed
  | stalled

inductive FlushOutcome
  | flushed
  | failed
  | gone
  deriving DecidableEq

/-- What the calls of a `spool_body` come to, in turn. Where the rounds run out, the connection is
dropped while it waits for the socket. -/
structure Outcomes where
  create : CreateOutcome
  first : WriteOutcome
  rounds : List (ReadOutcome × WriteOutcome)
  flush : FlushOutcome

inductive CopyEnd
  | copied (buf : Bytes)
  | failed
  | dropped

inductive SpoolEnd
  | spooled (body : SpooledBody) (buf : Bytes)
  | failed
  | dropped

/-- Whether the data are all in the file. -/
def writeAllBlocking (path : Text) (data : Bytes) (outcome : WriteOutcome) (files : Files) :
    Bool × Files :=
  match outcome with
  | .wrote => (true, Function.update files path ((files path).map (· ++ data)))
  | .failed kept => (false, Function.update files path ((files path).map (· ++ data.take kept)))
  | .gone => (false, files)

/-- The loop that streams the rest of the body from the socket. -/
def copyRest (path : Text) (contentLength : Nat) (rounds : List (ReadOutcome × WriteOutcome))
    (written : Nat) (buf : Bytes) (files : Files) : CopyEnd × Files :=
  if contentLength ≤ written then (.copied buf, files)
  else match rounds with
    | [] => (.dropped, files)
    | (.read data, write) :: rounds =>
      if data = [] then (.failed, files)
      else
        let take := min (contentLength - written) data.length
        match writeAllBlocking path (data.take take) write files with
        | (false, files) => (.failed, files)
        | (true, files) =>
          copyRest path contentLength rounds (written + take)
            (if take < data.length then buf ++ data.drop take else buf) files
    | (.failed, _) :: _ | (.stalled, _) :: _ => (.failed, files)
termination_by structural rounds

def spoolBody (path : Text) (outcomes : Outcomes) (headEnd contentLength : Nat) (buf : Bytes)
    (files : Files) : SpoolEnd × Files :=
  match outcomes.create with
  | .failed | .gone => (.failed, files)
  | .created =>
    let files := Function.update files path (some [])
    let bodyHave := buf.length - headEnd
    let fromBuf := min contentLength bodyHave
    let first :=
      if 0 < fromBuf then
        writeAllBlocking path ((buf.drop headEnd).take fromBuf) outcomes.first files
      else (true, files)
    match first with
    | (false, files) => (.failed, files)
    | (true, files) =>
      match copyRest path contentLength outcomes.rounds fromBuf (buf.drop (headEnd + fromBuf)) files with
      | (.failed, files) => (.failed, files)
      | (.dropped, files) => (.dropped, files)
      | (.copied buf, files) =>
        match outcomes.flush with
        | .flushed => (.spooled ⟨path, contentLength⟩ buf, files)
        | .failed | .gone => (.failed, files)

/-- The `Drop` of a spooled body. -/
def drop (body : SpooledBody) (files : Files) : Files := Function.update files body.path none

/-- The files after a request whose body is streamed to disk: `handler` is what is done to them
before the request is dropped, and the connection is closed on an error. -/
def serve (path : Text) (outcomes : Outcomes) (headEnd contentLength : Nat) (buf : Bytes)
    (handler : SpooledBody → Files → Files) (files : Files) : Files :=
  match spoolBody path outcomes headEnd contentLength buf files with
  | (.spooled body _, files) => drop body (handler body files)
  | (.failed, files) | (.dropped, files) => files

def received (rounds : List (ReadOutcome × WriteOutcome)) : Bytes :=
  rounds.flatMap fun round =>
    match round.1 with
    | .read data => data
    | _ => []

/-- The temporary file is gone in the end, and is the whole body when the request is handed on. -/
structure CleansUp (path : Text) (outcomes : Outcomes) (headEnd contentLength : Nat) (buf : Bytes)
    (files : Files) : Prop where
  removed : ∀ handler, serve path outcomes headEnd contentLength buf handler files path = none
  whole : ∀ body buf' files',
    spoolBody path outcomes headEnd contentLength buf files = (.spooled body buf', files') →
      ∃ content, files' path = some content ∧ content.length = contentLength ∧
        content = (buf.drop headEnd ++ received outcomes.rounds).take contentLength

/-- As many rounds as the body takes read and write without a failure. -/
def Carries (contentLength written : Nat) (rounds : List (ReadOutcome × WriteOutcome)) : Prop :=
  ∃ k, (∀ round ∈ rounds.take k, ∃ data, data ≠ [] ∧ round = (.read data, .wrote)) ∧
    contentLength ≤ written + (received (rounds.take k)).length

/-- Nothing that the copy needs fails before its end. -/
structure Uninterrupted (outcomes : Outcomes) (headEnd contentLength : Nat) (buf : Bytes) :
    Prop where
  first : 0 < min contentLength (buf.length - headEnd) → outcomes.first = .wrote
  rest : Carries contentLength (min contentLength (buf.length - headEnd)) outcomes.rounds
  flush : outcomes.flush = .flushed

section

variable {path : Text} {contentLength written : Nat} {rounds : List (ReadOutcome × WriteOutcome)}
  {buf : Bytes} {files : Files}

theorem received_cons (round : ReadOutcome × WriteOutcome) :
    received (round :: rounds) = received [round] ++ received rounds := by
  simp [received]

theorem carries_of_le (h : contentLength ≤ written) : Carries contentLength written rounds :=
  ⟨0, by simp, Nat.le_add_right_of_le h⟩

theorem not_carries_nil (h : ¬ contentLength ≤ written) : ¬ Carries contentLength written [] := by
  rintro ⟨k, -, hlen⟩
  rw [List.take_nil] at hlen
  exact h hlen

theorem carries_cons (h : ¬ contentLength ≤ written) (round : ReadOutcome × WriteOutcome) :
    Carries contentLength written (round :: rounds) ↔ ∃ data, data ≠ [] ∧
      round = (.read data, .wrote) ∧ Carries contentLength (written + data.length) rounds := by
  constructor
  · rintro ⟨k, hgood, hlen⟩
    cases k with
    | zero => exact absurd hlen h
    | succ k =>
      rw [List.take_succ_cons] at hgood hlen
      obtain ⟨data, hne, rfl⟩ := hgood round (List.mem_cons_self ..)
      refine ⟨data, hne, rfl, k, fun r hr => hgood r (List.mem_cons_of_mem _ hr), ?_⟩
      rw [received_cons, List.length_append] at hlen
      have hone : received [(ReadOutcome.read data, WriteOutcome.wrote)] = data := by
        simp [received]
      rw [hone] at hlen
      omega
  · rintro ⟨data, hne, rfl, k, hgood, hlen⟩
    refine ⟨k + 1, ?_, ?_⟩
    · rw [List.take_succ_cons]
      intro r hr
      rcases List.mem_cons.mp hr with rfl | hr
      · exact ⟨data, hne, rfl⟩
      · exact hgood r hr
    · have hone : received [(ReadOutcome.read data, WriteOutcome.wrote)] = data := by
        simp [received]
      rw [List.take_succ_cons, received_cons, List.length_append, hone]
      omega

/-- Bytes past the end of the body do not matter. -/
theorem carries_min (h : ¬ contentLength ≤ written) (len : Nat) :
    Carries contentLength (written + min (contentLength - written) len) rounds ↔
      Carries contentLength (written + len) rounds := by
  by_cases hlen : len ≤ contentLength - written
  · rw [Nat.min_eq_right hlen]
  · have hdone : contentLength ≤ written + min (contentLength - written) len := by omega
    have hdone' : contentLength ≤ written + len := by omega
    exact iff_of_true (carries_of_le hdone) (carries_of_le hdone')

theorem take_body {content data rest : Bytes} (hlen : content.length ≤ contentLength) :
    (content ++ data.take (min (contentLength - content.length) data.length) ++ rest).take
      contentLength = (content ++ (data ++ rest)).take contentLength := by
  by_cases hdata : data.length ≤ contentLength - content.length
  · rw [Nat.min_eq_right hdata, List.take_length, List.append_assoc]
  · have hmin : min (contentLength - content.length) data.length = contentLength - content.length := by
      omega
    have hfull : (content ++ data.take (contentLength - content.length)).length = contentLength := by
      rw [List.length_append, List.length_take]
      omega
    rw [hmin, List.take_append_of_le_length (Nat.le_of_eq hfull.symm),
      List.take_of_length_le (Nat.le_of_eq hfull), List.take_append, List.take_of_length_le hlen,
      List.take_append_of_le_length (by omega)]

/-- What the loop leaves of the file, and when it ends with all of the body. -/
theorem copyRest_spec {content : Bytes} (hfile : files path = some content)
    (hlen : content.length = written) (hle : written ≤ contentLength) :
    ∃ content', (copyRest path contentLength rounds written buf files).2 path = some content' ∧
      ((∃ buf', (copyRest path contentLength rounds written buf files).1 = .copied buf') ↔
        Carries contentLength written rounds) ∧
      ∀ buf', (copyRest path contentLength rounds written buf files).1 = .copied buf' →
        content'.length = contentLength ∧
          content' = (content ++ received rounds).take contentLength := by
  induction rounds generalizing written buf files content with
  | nil =>
    unfold copyRest
    split
    next hdone =>
      refine ⟨content, hfile, iff_of_true ⟨_, rfl⟩ (carries_of_le hdone), fun _ _ => ⟨by omega, ?_⟩⟩
      rw [List.take_append_of_le_length (by omega), List.take_of_length_le (by omega)]
    next hmore =>
      refine ⟨content, hfile, iff_of_false ?_ (not_carries_nil hmore), fun _ h => nomatch h⟩
      rintro ⟨_, h⟩
      cases h
  | cons round rounds ih =>
    unfold copyRest
    split
    next hdone =>
      refine ⟨content, hfile, iff_of_true ⟨_, rfl⟩ (carries_of_le hdone), fun _ _ => ⟨by omega, ?_⟩⟩
      rw [List.take_append_of_le_length (by omega), List.take_of_length_le (by omega)]
    next hmore =>
      -- A round that does not carry leaves the file as it is, or with a part of the data more.
      have hstop : ∀ {result : CopyEnd × Files} {content' : Bytes}, result.1 = .failed →
          result.2 path = some content' →
          (∀ data, data ≠ [] → round ≠ (.read data, .wrote)) →
          ∃ content', result.2 path = some content' ∧
            ((∃ buf', result.1 = .copied buf') ↔ Carries contentLength written (round :: rounds)) ∧
            ∀ buf', result.1 = .copied buf' → content'.length = contentLength ∧
              content' = (content ++ received (round :: rounds)).take contentLength := by
        intro result content' hfailed hleft hround
        refine ⟨content', hleft, iff_of_false ?_ ?_, fun _ h => ?_⟩
        · rintro ⟨_, h⟩
          rw [hfailed] at h
          cases h
        · intro hcarries
          obtain ⟨data, hne, heq, -⟩ := (carries_cons hmore round).mp hcarries
          exact hround data hne heq
        · rw [hfailed] at h
          cases h
      obtain ⟨read, write⟩ := round
      cases read with
      | failed => exact hstop rfl hfile fun _ _ h => nomatch h
      | stalled => exact hstop rfl hfile fun _ _ h => nomatch h
      | read data =>
        dsimp only
        split
        next hend =>
          refine hstop rfl hfile fun data' hne h => hne ?_
          cases h
          exact hend
        next hdata =>
          cases write with
          | failed kept =>
            have hpart : Function.update files path ((files path).map (· ++ (data.take
                (min (contentLength - written) data.length)).take kept)) path = some (content ++
                  (data.take (min (contentLength - written) data.length)).take kept) := by
              rw [Function.update_self, hfile, Option.map_some]
            exact hstop rfl hpart fun _ _ h => nomatch h
          | gone => exact hstop rfl hfile fun _ _ h => nomatch h
          | wrote =>
            have hnew : Function.update files path ((files path).map (· ++ data.take
                (min (contentLength - written) data.length))) path = some (content ++ data.take
                  (min (contentLength - written) data.length)) := by
              rw [Function.update_self, hfile, Option.map_some]
            have hnewlen : (content ++ data.take (min (contentLength - written) data.length)).length =
                written + min (contentLength - written) data.length := by
              rw [List.length_append, List.length_take, hlen, Nat.min_assoc, Nat.min_self]
            obtain ⟨content', hleft, hends, hwhole⟩ := @ih _
              (if min (contentLength - written) data.length < data.length then
                buf ++ data.drop (min (contentLength - written) data.length) else buf)
              _ _ hnew hnewlen (by omega)
            refine ⟨content', hleft, hends.trans ?_, fun buf' h => ?_⟩
            · rw [carries_min hmore, carries_cons hmore]
              constructor
              · intro hcarries
                exact ⟨data, hdata, rfl, hcarries⟩
              · rintro ⟨data', -, heq, hcarries⟩
                cases heq
                exact hcarries
            · obtain ⟨hfull, hcontent⟩ := hwhole buf' h
              refine ⟨hfull, hcontent.trans ?_⟩
              subst hlen
              rw [take_body hle]
              rfl

end

section

variable {path : Text} {outcomes : Outcomes} {headEnd contentLength : Nat} {buf : Bytes}
  {files : Files}

theorem spoolBody_create (hcreate : outcomes.create ≠ .created) :
    spoolBody path outcomes headEnd contentLength buf files = (.failed, files) := by
  unfold spoolBody
  cases h : outcomes.create with
  | created => exact absurd h hcreate
  | failed => rfl
  | gone => rfl

/-- The write of the bytes that came with the head. -/
theorem first_spec {data : Bytes} {fromBuf : Nat} (hlen : data.length = fromBuf)
    (outcome : WriteOutcome) (hfile : files path = some []) :
    ∃ done files' content, (if 0 < fromBuf then writeAllBlocking path data outcome files
        else (true, files)) = (done, files') ∧ files' path = some content ∧
      (done = true ↔ (0 < fromBuf → outcome = .wrote)) ∧ (done = true → content = data) := by
  by_cases hpos : 0 < fromBuf
  · rw [if_pos hpos]
    cases outcome with
    | wrote =>
      refine ⟨true, _, data, rfl, ?_, by simp, fun _ => rfl⟩
      rw [Function.update_self, hfile, Option.map_some, List.nil_append]
    | failed kept =>
      refine ⟨false, _, data.take kept, rfl, ?_, by simp [hpos], fun h => nomatch h⟩
      rw [Function.update_self, hfile, Option.map_some, List.nil_append]
    | gone => exact ⟨false, files, [], rfl, hfile, by simp [hpos], fun h => nomatch h⟩
  · have hnil : data = [] := List.length_eq_zero_iff.mp (by omega)
    rw [if_neg hpos, hnil]
    exact ⟨true, files, [], rfl, hfile, by simp [hpos], fun _ => rfl⟩

/-- Once it is created the file is left on disk, by whichever way the copy ends. -/
theorem spoolBody_created (hcreate : outcomes.create = .created) :
    ∃ content, (spoolBody path outcomes headEnd contentLength buf files).2 path = some content ∧
      ((∃ body buf', (spoolBody path outcomes headEnd contentLength buf files).1 =
        .spooled body buf') ↔ Uninterrupted outcomes headEnd contentLength buf) ∧
      ∀ body buf', (spoolBody path outcomes headEnd contentLength buf files).1 =
        .spooled body buf' → body.path = path ∧ content.length = contentLength ∧
          content = (buf.drop headEnd ++ received outcomes.rounds).take contentLength := by
  have hhead : ((buf.drop headEnd).take (min contentLength (buf.length - headEnd))).length =
      min contentLength (buf.length - headEnd) := by
    rw [List.length_take, List.length_drop]
    omega
  -- Bytes of the buffer past the body are those of the next request.
  have hbody : ((buf.drop headEnd).take (min contentLength (buf.length - headEnd)) ++
      received outcomes.rounds).take contentLength =
        (buf.drop headEnd ++ received outcomes.rounds).take contentLength := by
    have hspliced := @take_body contentLength [] (buf.drop headEnd) (received outcomes.rounds)
      (Nat.zero_le _)
    simpa using hspliced
  obtain ⟨done, files₁, content₁, hfirst, hfile₁, hdone, hcontent₁⟩ := first_spec hhead outcomes.first
    (Function.update_self path (some []) files)
  unfold spoolBody
  rw [hcreate]
  dsimp only
  rw [hfirst]
  cases done with
  | false =>
    refine ⟨content₁, hfile₁, iff_of_false ?_ fun h => ?_, fun _ _ h => nomatch h⟩
    · rintro ⟨_, _, h⟩
      cases h
    · cases hdone.mpr h.first
  | true =>
    obtain ⟨content, hleft, hends, hwhole⟩ := @copyRest_spec path contentLength _ outcomes.rounds
      (buf.drop (headEnd + min contentLength (buf.length - headEnd))) files₁ _ hfile₁
      ((congrArg List.length (hcontent₁ rfl)).trans hhead) (Nat.min_le_left ..)
    rw [hcontent₁ rfl, hbody] at hwhole
    dsimp only
    cases hcopy : copyRest path contentLength outcomes.rounds
        (min contentLength (buf.length - headEnd))
        (buf.drop (headEnd + min contentLength (buf.length - headEnd))) files₁ with
    | mk result files₂ =>
      rw [hcopy] at hleft hends hwhole
      -- The copy that has failed has met one of the failures.
      have hnot : (∀ buf', result ≠ .copied buf') →
          ¬ Uninterrupted outcomes headEnd contentLength buf := by
        intro hresult hall
        obtain ⟨buf', h⟩ := hends.mpr hall.rest
        exact hresult buf' h
      cases result with
      | failed =>
        refine ⟨content, hleft, iff_of_false ?_ (hnot fun _ h => nomatch h), fun _ _ h => nomatch h⟩
        rintro ⟨_, _, h⟩
        cases h
      | dropped =>
        refine ⟨content, hleft, iff_of_false ?_ (hnot fun _ h => nomatch h), fun _ _ h => nomatch h⟩
        rintro ⟨_, _, h⟩
        cases h
      | copied buf' =>
        obtain ⟨hlen, hcontent⟩ := hwhole buf' rfl
        have hrest := hends.mp ⟨buf', rfl⟩
        have hstop : ¬ outcomes.flush = .flushed →
            ¬ Uninterrupted outcomes headEnd contentLength buf := fun hflush h => hflush h.flush
        cases hflush : outcomes.flush with
        | flushed =>
          dsimp only
          refine ⟨content, hleft, iff_of_true ⟨_, _, rfl⟩ ⟨hdone.mp rfl, hrest, hflush⟩, ?_⟩
          intro body buf'' h
          cases h
          exact ⟨rfl, hlen, hcontent⟩
        | failed | gone =>
          refine ⟨content, hleft, iff_of_false ?_ (hstop (by simp [hflush])), fun _ _ h => nomatch h⟩
          rintro ⟨_, _, h⟩
          cases h

/-- The file of a body that is streamed to disk is cleaned up exactly where it is not created, or
nothing fails before the body is in it. -/
theorem cleansUp_iff (hfresh : files path = none) :
    CleansUp path outcomes headEnd contentLength buf files ↔
      outcomes.create ≠ .created ∨ Uninterrupted outcomes headEnd contentLength buf := by
  by_cases hcreate : outcomes.create = .created
  · rw [or_iff_right (not_not_intro hcreate)]
    obtain ⟨content, hleft, hends, hwhole⟩ := @spoolBody_created path outcomes headEnd contentLength
      buf files hcreate
    rw [← hends]
    cases hspool : spoolBody path outcomes headEnd contentLength buf files with
    | mk result files' =>
      rw [hspool] at hleft hwhole
      have hnot : result = .failed ∨ result = .dropped → 
          ¬ CleansUp path outcomes headEnd contentLength buf files := by
        intro hresult hclean
        have hgone := hclean.removed fun _ files => files
        unfold serve at hgone
        rw [hspool] at hgone
        rcases hresult with rfl | rfl
        · cases hleft.symm.trans hgone
        · cases hleft.symm.trans hgone
      cases result with
      | failed => exact iff_of_false (hnot (.inl rfl)) fun ⟨_, _, h⟩ => nomatch h
      | dropped => exact iff_of_false (hnot (.inr rfl)) fun ⟨_, _, h⟩ => nomatch h
      | spooled body buf' =>
        obtain ⟨hpath, hlen, hcontent⟩ := hwhole body buf' rfl
        refine iff_of_true ⟨fun handler => ?_, fun body' buf'' files'' h => ?_⟩ ⟨body, buf', rfl⟩
        · have hdrop : drop body (handler body files') path = none := by
            rw [drop, hpath, Function.update_self]
          unfold serve
          rw [hspool]
          exact hdrop
        · rw [hspool] at h
          cases h
          exact ⟨content, hleft, hlen, hcontent⟩
  · refine iff_of_true ⟨fun handler => ?_, fun body buf' files' h => ?_⟩ (Or.inl hcreate)
    · unfold serve
      rw [spoolBody_create hcreate]
      exact hfresh
    · rw [spoolBody_create hcreate] at h
      cases h

/-- A body of four bytes, two of them read with the head. -/
def fourBytes (rounds : List (ReadOutcome × WriteOutcome)) : Outcomes where
  create := .created
  first := .wrote
  rounds := rounds
  flush := .flushed

theorem cleansUp_iff_fourBytes :
    CleansUp ['t'] (fourBytes [(.read [3, 4, 5], .wrote)]) 1 4 [0, 1, 2] fun _ => none := by
  refine (cleansUp_iff rfl).mpr (Or.inr ⟨fun _ => rfl, ⟨1, ?_, by decide⟩, rfl⟩)
  intro round hround
  rw [List.mem_singleton.mp hround]
  exact ⟨[3, 4, 5], by simp, rfl⟩

/-- The client goes quiet in the middle of its upload. -/
theorem not_cleansUp : ¬ CleansUp ['t'] (fourBytes [(.stalled, .wrote)]) 1 4 [0, 1, 2]
    fun _ => none := by
  intro hclean
  have hgone := hclean.removed fun _ files => files
  have hleft : serve ['t'] (fourBytes [(.stalled, .wrote)]) 1 4 [0, 1, 2] (fun _ files => files)
      (fun _ => none) ['t'] = some [1, 2] := by decide
  rw [hleft] at hgone
  cases hgone

end

end Kernway.Spool
