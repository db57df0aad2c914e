import Kernway.Crlf
import Kernway.Reads
import Kernway.Resumable
import Kernway.Str

namespace Kernway

/-- What decoding a chunked body fails with. `panicked` is a slice past the end of memory. -/
inductive ChunkError
  | protocol (message : Text)
  | panicked

def ChunkError.malformed : ChunkError := .protocol "malformed chunked body".toList

def hexDigit (c : Char) : Option Nat :=
  if '0' ≤ c ∧ c ≤ '9' then some (c.toNat - 48)
  else if 'a' ≤ c ∧ c ≤ 'f' then some (c.toNat - 87)
  else if 'A' ≤ c ∧ c ≤ 'F' then some (c.toNat - 55)
  else none

/-- `usize::from_str_radix(_, 16)`. -/
def parseHex (s : Text) : Option Nat := do
  let digits := match s with
    | '+' :: rest => rest
    | _ => s
  let values ← digits.mapM hexDigit
  let n := values.foldl (fun n d => 16 * n + d) 0
  if digits ≠ [] ∧ n < 2 ^ 64 then some n else none

/-- The size on a chunk's line; what follows a semicolon is an extension. -/
def parseSize (line : Bytes) : Option Nat := do
  let s ← decodeUtf8 line
  parseHex (trim ((s.splitOn ';').headD []))

/-- The loop of `decode_chunked` from `pos` on, `bytes` being `bytes[pos..]`. -/
@[semireducible] def decodeChunkedFrom (pos : Nat) (bytes : Bytes) : Except ChunkError (Option Bytes) :=
  match _h : findCrlf bytes with
  | none => .ok none
  | some lineEnd =>
    match parseSize (bytes.take lineEnd) with
    | none => .ok none
    | some size =>
      let data := bytes.drop (lineEnd + 2)
      if size = 0 then .ok (some [])
      -- `checked_add`
      else if 2 ^ 64 ≤ pos + (lineEnd + 2) + size then .ok none
      -- `end + 2` overflows, and with overflow unchecked the slice is out of range
      else if 2 ^ 64 ≤ pos + (lineEnd + 2) + size + 2 then .error .panicked
      else if data.length < size + 2 then .ok none
      else (decodeChunkedFrom (pos + (lineEnd + 2) + size + 2) (data.drop (size + 2))).map
        (Option.map (data.take size ++ ·))
termination_by bytes.length
decreasing_by
  have := findCrlf_bounds _h
  simp only [List.length_drop]
  omega

def decodeChunked (bytes : Bytes) : Except ChunkError (Option Bytes) := decodeChunkedFrom 0 bytes

inductive ChunkState
  | size
  | data (rem : Nat) (pos : 0 < rem)
  | dataCrlf
  | trailer
  | done

/-- What is decoded first, before what `pull` goes on with. -/
def decodedFirst (part : Bytes) (next : ChunkState × Bytes × Bytes) : ChunkState × Bytes × Bytes :=
  (next.1, part ++ next.2.1, next.2.2)

namespace ChunkDecoder

/-- `ChunkDecoder::pull`: the next state, the bytes appended to `out`, and those left in `buf`. -/
@[semireducible] def pull (state : ChunkState) (buf : Bytes) :
    Except ChunkError (ChunkState × Bytes × Bytes) :=
  match state with
  | .done => .ok (.done, [], buf)
  | .size =>
    match _h : findCrlf buf with
    | none => .ok (.size, [], buf)
    | some i =>
      match parseSize (buf.take i) with
      | none => .error .malformed
      | some size =>
        if hsize : size = 0 then pull .trailer (buf.drop (i + 2))
        else pull (.data size (Nat.pos_of_ne_zero hsize)) (buf.drop (i + 2))
  | .data rem pos =>
    if _h : buf = [] then .ok (.data rem pos, [], [])
    else if hrest : rem ≤ buf.length then
      (pull .dataCrlf (buf.drop rem)).map (decodedFirst (buf.take rem))
    else .ok (.data (rem - buf.length) (by omega), buf, [])
  | .dataCrlf => if buf.length < 2 then .ok (.dataCrlf, [], buf) else pull .size (buf.drop 2)
  | .trailer =>
    match _h : findCrlf buf with
    | none => .ok (.trailer, [], buf)
    | some i => .ok (.done, [], buf.drop (i + 2))
termination_by buf.length
decreasing_by
  · have := findCrlf_bounds _h
    rw [List.length_drop]
    omega
  · have := findCrlf_bounds _h
    rw [List.length_drop]
    omega
  · have := List.length_pos_iff.mpr _h
    rw [List.length_drop]
    omega
  · rw [List.length_drop]
    omega

alias pull_done := pull.eq_1

theorem pull_none {buf : Bytes} (h : findCrlf buf = none) :
    pull .size buf = .ok (.size, [], buf) := by
  rw [pull]
  split
  next => rfl
  next i hi =>
    rw [h] at hi
    cases hi

theorem pull_line {line : Bytes} (h : findCrlf line = none) (rest : Bytes) :
    pull .size (line ++ 13 :: 10 :: rest) =
      match parseSize line with
      | none => .error .malformed
      | some size =>
        if hsize : size = 0 then pull .trailer rest
        else pull (.data size (Nat.pos_of_ne_zero hsize)) rest := by
  have hline := findCrlf_line h rest
  have htake : (line ++ 13 :: 10 :: rest).take line.length = line := List.take_left
  have hdrop : (line ++ 13 :: 10 :: rest).drop (line.length + 2) = rest := by
    rw [← List.drop_drop, List.drop_left]
    rfl
  rw [pull]
  split
  next hi =>
    rw [hline] at hi
    cases hi
  next i hi =>
    rw [hline] at hi
    cases hi
    rw [htake, hdrop]

theorem pull_data_nil (rem : Nat) (pos : 0 < rem) :
    pull (.data rem pos) [] = .ok (.data rem pos, [], []) := by
  rw [pull]
  rfl

theorem pull_data_whole {rem : Nat} (pos : 0 < rem) {data : Bytes} (h : data.length = rem)
    (rest : Bytes) :
    pull (.data rem pos) (data ++ rest) = (pull .dataCrlf rest).map (decodedFirst data) := by
  subst h
  have hne : data ++ rest ≠ [] := fun hnil =>
    List.length_pos_iff.mp pos (List.append_eq_nil_iff.mp hnil).1
  have hlen : data.length ≤ (data ++ rest).length := by
    rw [List.length_append]
    omega
  rw [pull, dif_neg hne, dif_pos hlen, List.take_left, List.drop_left]

theorem pull_data_part {rem : Nat} (pos : 0 < rem) {buf : Bytes} (h : buf.length < rem) :
    pull (.data rem pos) buf = .ok (.data (rem - buf.length) (by omega), buf, []) := by
  cases buf with
  | nil => exact pull_data_nil rem pos
  | cons b buf => rw [pull, dif_neg (List.cons_ne_nil b buf), dif_neg (by omega)]

theorem pull_dataCrlf_short {buf : Bytes} (h : buf.length < 2) :
    pull .dataCrlf buf = .ok (.dataCrlf, [], buf) := by
  rw [pull, if_pos h]

theorem pull_dataCrlf {ending : Bytes} (h : ending.length = 2) (rest : Bytes) :
    pull .dataCrlf (ending ++ rest) = pull .size rest := by
  have hlen : ¬ (ending ++ rest).length < 2 := by
    rw [List.length_append]
    omega
  conv_lhs => rw [pull, if_neg hlen, ← h, List.drop_left]

theorem pull_trailer_none {buf : Bytes} (h : findCrlf buf = none) :
    pull .trailer buf = .ok (.trailer, [], buf) := by
  rw [pull]
  split
  next => rfl
  next i hi =>
    rw [h] at hi
    cases hi

theorem pull_trailer {line : Bytes} (h : findCrlf line = none) (rest : Bytes) :
    pull .trailer (line ++ 13 :: 10 :: rest) = .ok (.done, [], rest) := by
  have hline := findCrlf_line h rest
  have hdrop : (line ++ 13 :: 10 :: rest).drop (line.length + 2) = rest := by
    rw [← List.drop_drop, List.drop_left]
    rfl
  rw [pull]
  split
  next hi =>
    rw [hline] at hi
    cases hi
  next i hi =>
    rw [hline] at hi
    cases hi
    rw [hdrop]

theorem decodedFirst_nil (progress : Except ChunkError (ChunkState × Bytes × Bytes)) :
    progress.map (decodedFirst []) = progress := by
  cases progress with
  | error e => rfl
  | ok next => rfl

theorem decodedFirst_append (first second : Bytes)
    (progress : Except ChunkError (ChunkState × Bytes × Bytes)) :
    (progress.map (decodedFirst second)).map (decodedFirst first) =
      progress.map (decodedFirst (first ++ second)) := by
  cases progress with
  | error e => rfl
  | ok next =>
    show Except.ok (decodedFirst first (decodedFirst second next)) =
      Except.ok (decodedFirst (first ++ second) next)
    simp only [decodedFirst, List.append_assoc]

theorem pull_nil (state : ChunkState) : pull state [] = .ok (state, [], []) := by
  cases state with
  | size => exact pull_none rfl
  | data rem pos => exact pull_data_nil rem pos
  | dataCrlf => exact pull_dataCrlf_short Nat.two_pos
  | trailer => exact pull_trailer_none rfl
  | done => exact pull_done []

/-- What a pull leaves is pulled with the bytes that come after it. -/
def resume (first : ChunkState × Bytes × Bytes) (ext : Bytes) :
    Except ChunkError (ChunkState × Bytes × Bytes) :=
  (pull first.1 (first.2.2 ++ ext)).map (decodedFirst first.2.1)

theorem resume_decodedFirst (part ext : Bytes)
    (progress : Except ChunkError (ChunkState × Bytes × Bytes)) :
    (progress.map (decodedFirst part)).bind (resume · ext) =
      (progress.bind (resume · ext)).map (decodedFirst part) := by
  cases progress with
  | error e => rfl
  | ok first => exact (decodedFirst_append part first.2.1 _).symm

theorem pull_append_data {rem : Nat} (pos : 0 < rem) {buf : Bytes} (h : buf.length < rem)
    (ext : Bytes) : pull (.data rem pos) (buf ++ ext) =
      (pull (.data (rem - buf.length) (by omega)) ext).map (decodedFirst buf) := by
  by_cases hext : ext.length < rem - buf.length
  · have hall : (buf ++ ext).length < rem := by
      rw [List.length_append]
      omega
    rw [pull_data_part pos hall, pull_data_part _ hext]
    simp only [List.length_append, Except.map, decodedFirst, Nat.sub_sub]
  · let data := ext.take (rem - buf.length)
    let rest := ext.drop (rem - buf.length)
    have hext' : ext = data ++ rest := (List.take_append_drop _ ext).symm
    have hdata : data.length = rem - buf.length := by
      rw [List.length_take]
      omega
    have hall : (buf ++ data).length = rem := by
      rw [List.length_append, hdata]
      omega
    rw [hext', ← List.append_assoc, pull_data_whole pos hall, pull_data_whole _ hdata,
      decodedFirst_append]

theorem pull_append (state : ChunkState) (buf ext : Bytes) :
    pull state (buf ++ ext) = (pull state buf).bind (resume · ext) := by
  have kept : ∀ {state : ChunkState} {buf : Bytes}, pull state buf = .ok (state, [], buf) →
      pull state (buf ++ ext) = (pull state buf).bind (resume · ext) := by
    intro state buf h
    rw [h]
    exact (decodedFirst_nil _).symm
  induction hn : buf.length using Nat.strong_induction_on generalizing state buf with
  | h n ih =>
    subst hn
    cases state with
    | done => exact kept (pull_done buf)
    | size =>
      cases hfind : findCrlf buf with
      | none => exact kept (pull_none hfind)
      | some i =>
        obtain ⟨rest, hbuf, hline⟩ := findCrlf_some hfind
        have hless : rest.length < buf.length := by
          rw [hbuf, List.length_append, List.length_cons, List.length_cons]
          omega
        rw [hbuf, List.append_assoc, List.cons_append, List.cons_append, pull_line hline,
          pull_line hline]
        cases parseSize (buf.take i) with
        | none => rfl
        | some size =>
          by_cases hsize : size = 0
          · simp only [dif_pos hsize]
            exact ih _ hless .trailer rest rfl
          · simp only [dif_neg hsize]
            exact ih _ hless (.data size _) rest rfl
    | data rem pos =>
      by_cases hrem : buf.length < rem
      · rw [pull_data_part pos hrem]
        exact pull_append_data pos hrem ext
      · let data := buf.take rem
        let rest := buf.drop rem
        have hbuf : buf = data ++ rest := (List.take_append_drop rem buf).symm
        have hdata : data.length = rem := by
          rw [List.length_take]
          omega
        have hless : rest.length < buf.length := by
          rw [List.length_drop]
          omega
        rw [hbuf, List.append_assoc, pull_data_whole pos hdata, pull_data_whole pos hdata,
          resume_decodedFirst, ← ih _ hless .dataCrlf rest rfl]
    | dataCrlf =>
      by_cases hshort : buf.length < 2
      · exact kept (pull_dataCrlf_short hshort)
      · let ending := buf.take 2
        let rest := buf.drop 2
        have hbuf : buf = ending ++ rest := (List.take_append_drop 2 buf).symm
        have hending : ending.length = 2 := by
          rw [List.length_take]
          omega
        have hless : rest.length < buf.length := by
          rw [List.length_drop]
          omega
        rw [hbuf, List.append_assoc, pull_dataCrlf hending, pull_dataCrlf hending]
        exact ih _ hless .size rest rfl
    | trailer =>
      cases hfind : findCrlf buf with
      | none => exact kept (pull_trailer_none hfind)
      | some i =>
        obtain ⟨rest, hbuf, hline⟩ := findCrlf_some hfind
        rw [hbuf, List.append_assoc, List.cons_append, List.cons_append, pull_trailer hline,
          pull_trailer hline]
        show _ = (pull .done (rest ++ ext)).map (decodedFirst [])
        rw [pull_done]
        rfl

end ChunkDecoder

def chunkDecoder : Resumable ChunkState UInt8 UInt8 ChunkError where
  pull := ChunkDecoder.pull
  pull_nil := ChunkDecoder.pull_nil
  pull_append := ChunkDecoder.pull_append

/-- A body streamed through a new `ChunkDecoder`: its state after the reads, the body bytes it has
given out, and the bytes still in its buffer. -/
def streamChunked (reads : List Chunk) : Except ChunkError (ChunkState × Bytes × Bytes) :=
  chunkDecoder.run .size (reads.map Subtype.val)

theorem streamChunked_received (reads : List Chunk) :
    streamChunked reads = ChunkDecoder.pull .size (received reads) :=
  chunkDecoder.run_eq_pull .size (reads.map Subtype.val)

end Kernway
