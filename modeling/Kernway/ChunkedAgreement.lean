import Kernway.ChunkedBody

namespace Kernway

/-- The whole chunks at the front of a body: their data, and the bytes after them. -/
inductive Chunks : Bytes → Bytes → Bytes → Prop
  | nil (bytes : Bytes) : Chunks bytes [] bytes
  | cons {line data ending bytes body rest : Bytes} {size : Nat} (hline : findCrlf line = none)
      (hsize : parseSize line = some size) (hpos : 0 < size) (hdata : data.length = size)
      (hending : ending.length = 2) (more : Chunks bytes body rest) :
      Chunks (line ++ 13 :: 10 :: (data ++ (ending ++ bytes))) (data ++ body) rest

/-- Bytes at whose front no whole chunk stands. -/
inductive Stop : Bytes → Prop
  | open {bytes : Bytes} (hline : findCrlf bytes = none) : Stop bytes
  | malformed {line : Bytes} (hline : findCrlf line = none) (hsize : parseSize line = none)
      (rest : Bytes) : Stop (line ++ 13 :: 10 :: rest)
  | last {line : Bytes} (hline : findCrlf line = none) (hsize : parseSize line = some 0)
      (rest : Bytes) : Stop (line ++ 13 :: 10 :: rest)
  | short {line rest : Bytes} {size : Nat} (hline : findCrlf line = none)
      (hsize : parseSize line = some size) (hpos : 0 < size) (hrest : rest.length < size + 2) :
      Stop (line ++ 13 :: 10 :: rest)

/-- The line of a chunk of size zero follows the whole chunks, and `rest` follows it. -/
def Ended (bytes rest : Bytes) : Prop :=
  ∃ body line, Chunks bytes body (line ++ 13 :: 10 :: rest) ∧ findCrlf line = none ∧
    parseSize line = some 0

/-- After the whole chunks a size is announced for which the end of the chunk is a `usize` and the
position two after it is not. -/
def Overruns (bytes : Bytes) : Prop :=
  ∃ body line rest size, Chunks bytes body (line ++ 13 :: 10 :: rest) ∧ findCrlf line = none ∧
    parseSize line = some size ∧ bytes.length - rest.length + size < 2 ^ 64 ∧
    2 ^ 64 ≤ bytes.length - rest.length + size + 2

namespace Chunks

theorem length_le {bytes body rest : Bytes} (h : Chunks bytes body rest) :
    rest.length ≤ bytes.length := by
  induction h with
  | nil bytes => exact le_refl _
  | cons hline hsize hpos hdata hending more ih =>
    simp only [List.length_append, List.length_cons]
    omega

theorem append {bytes body rest : Bytes} (h : Chunks bytes body rest) (ext : Bytes) :
    Chunks (bytes ++ ext) body (rest ++ ext) := by
  induction h with
  | nil bytes => exact .nil (bytes ++ ext)
  | cons hline hsize hpos hdata hending more ih =>
    simp only [List.append_assoc, List.cons_append]
    exact .cons hline hsize hpos hdata hending ih

/-- The whole chunks do not depend on how much follows them. -/
theorem cut {bytes body front tail : Bytes} (h : Chunks bytes body (front ++ tail)) :
    ∃ before, bytes = before ++ tail ∧ Chunks before body front := by
  generalize hrest : front ++ tail = rest at h
  induction h with
  | nil bytes => exact ⟨front, hrest.symm, .nil front⟩
  | cons hline hsize hpos hdata hending more ih =>
    obtain ⟨before, rfl, hbefore⟩ := ih hrest
    refine ⟨_, ?_, .cons hline hsize hpos hdata hending hbefore⟩
    simp only [List.append_assoc, List.cons_append]

/-- Every body is its whole chunks and bytes at which no whole chunk stands. -/
theorem exists_stop (bytes : Bytes) : ∃ body rest, Chunks bytes body rest ∧ Stop rest := by
  induction hn : bytes.length using Nat.strong_induction_on generalizing bytes with
  | h n ih =>
    subst hn
    cases hfind : findCrlf bytes with
    | none => exact ⟨[], bytes, .nil bytes, .open hfind⟩
    | some i =>
      obtain ⟨after, hbytes, hline⟩ := findCrlf_some hfind
      generalize bytes.take i = line at hbytes hline
      subst hbytes
      cases hsize : parseSize line with
      | none => exact ⟨[], _, .nil _, .malformed hline hsize after⟩
      | some size =>
        rcases Nat.eq_zero_or_pos size with rfl | hpos
        · exact ⟨[], _, .nil _, .last hline hsize after⟩
        · by_cases hshort : after.length < size + 2
          · exact ⟨[], _, .nil _, .short hline hsize hpos hshort⟩
          · let data := after.take size
            let ending := (after.drop size).take 2
            let more := (after.drop size).drop 2
            have hafter : after = data ++ (ending ++ more) := by
              rw [List.take_append_drop, List.take_append_drop]
            have hdata : data.length = size := by
              rw [List.length_take]
              omega
            have hending : ending.length = 2 := by
              rw [List.length_take, List.length_drop]
              omega
            have hless : more.length < (line ++ 13 :: 10 :: after).length := by
              simp only [more, List.length_append, List.length_cons, List.length_drop]
              omega
            obtain ⟨body, rest, hmore, hstop⟩ := ih _ hless more rfl
            refine ⟨data ++ body, rest, ?_, hstop⟩
            rw [hafter]
            exact .cons hline hsize hpos hdata hending hmore

end Chunks

theorem Ended.append {bytes rest : Bytes} (h : Ended bytes rest) (ext : Bytes) :
    Ended (bytes ++ ext) (rest ++ ext) := by
  obtain ⟨body, line, hchunks, hline, hsize⟩ := h
  have happend := hchunks.append ext
  rw [List.append_assoc] at happend
  exact ⟨body, line, happend, hline, hsize⟩

/-- With the line of the zero-size chunk the body has ended, whatever comes after it. -/
theorem Ended.cut {bytes rest : Bytes} (h : Ended bytes rest) :
    ∃ before, before <+: bytes ∧ Ended before [] := by
  obtain ⟨body, line, hchunks, hline, hsize⟩ := h
  have hsplit : line ++ 13 :: 10 :: rest = (line ++ [13, 10]) ++ rest := by
    rw [List.append_assoc]
    rfl
  rw [hsplit] at hchunks
  obtain ⟨before, rfl, hbefore⟩ := hchunks.cut
  exact ⟨before, List.prefix_append before rest, body, line, hbefore, hline, hsize⟩

theorem Overruns.append {bytes : Bytes} (h : Overruns bytes) (ext : Bytes) :
    Overruns (bytes ++ ext) := by
  obtain ⟨body, line, rest, size, hchunks, hline, hsize, hend, hover⟩ := h
  have happend := hchunks.append ext
  have hsame : (bytes ++ ext).length - (rest ++ ext).length = bytes.length - rest.length := by
    rw [List.length_append, List.length_append, Nat.add_sub_add_right]
  rw [List.append_assoc] at happend
  refine ⟨body, line, rest ++ ext, size, happend, hline, hsize, ?_, ?_⟩
  · rw [hsame]
    exact hend
  · rw [hsame]
    exact hover

theorem decodeChunkedFrom_none {bytes : Bytes} (h : findCrlf bytes = none) (pos : Nat) :
    decodeChunkedFrom pos bytes = .ok none := by
  rw [decodeChunkedFrom]
  split
  next => rfl
  next i hi =>
    rw [h] at hi
    cases hi

theorem decodeChunkedFrom_line {line : Bytes} (h : findCrlf line = none) (rest : Bytes) (pos : Nat) :
    decodeChunkedFrom pos (line ++ 13 :: 10 :: rest) =
      match parseSize line with
      | none => .ok none
      | some size =>
        if size = 0 then .ok (some [])
        else if 2 ^ 64 ≤ pos + (line.length + 2) + size then .ok none
        else if 2 ^ 64 ≤ pos + (line.length + 2) + size + 2 then .error .panicked
        else if rest.length < size + 2 then .ok none
        else (decodeChunkedFrom (pos + (line.length + 2) + size + 2) (rest.drop (size + 2))).map
          (Option.map (rest.take size ++ ·)) := by
  have hline := findCrlf_line h rest
  have htake : (line ++ 13 :: 10 :: rest).take line.length = line := List.take_left
  have hdrop : (line ++ 13 :: 10 :: rest).drop (line.length + 2) = rest := by
    rw [← List.drop_drop, List.drop_left]
    rfl
  conv_lhs => rw [decodeChunkedFrom]
  split
  next hi =>
    rw [hline] at hi
    cases hi
  next i hi =>
    rw [hline] at hi
    cases hi
    cases hsize : parseSize line with
    | none => simp only [htake, hsize]
    | some size => simp only [htake, hdrop, hsize]

namespace Chunks

theorem decodeChunkedFrom_eq {bytes body rest : Bytes} (h : Chunks bytes body rest) (pos : Nat)
    (hfits : pos + bytes.length < 2 ^ 64) : decodeChunkedFrom pos bytes =
      (decodeChunkedFrom (pos + (bytes.length - rest.length)) rest).map (Option.map (body ++ ·)) := by
  induction h generalizing pos with
  | nil bytes =>
    rw [Nat.sub_self, Nat.add_zero]
    rcases decodeChunkedFrom pos bytes with e | _ | body
    · rfl
    · rfl
    · rfl
  | @cons line data ending bytes body rest size hline hsize hpos hdata hending more ih =>
    have hless := more.length_le
    have hlen : (line ++ 13 :: 10 :: (data ++ (ending ++ bytes))).length =
        line.length + 2 + size + 2 + bytes.length := by
      simp only [List.length_append, List.length_cons]
      omega
    have hdrop : (data ++ (ending ++ bytes)).drop (size + 2) = bytes := by
      rw [← List.drop_drop, ← hdata, List.drop_left, ← hending, List.drop_left]
    have htake : (data ++ (ending ++ bytes)).take size = data := by
      rw [← hdata, List.take_left]
    have hwhole : ¬ (data ++ (ending ++ bytes)).length < size + 2 := by
      simp only [List.length_append]
      omega
    have hnext : pos + (line.length + 2) + size + 2 + (bytes.length - rest.length) =
        pos + ((line ++ 13 :: 10 :: (data ++ (ending ++ bytes))).length - rest.length) := by
      omega
    rw [hlen] at hfits
    rw [decodeChunkedFrom_line hline, hsize]
    simp only
    rw [if_neg (by omega), if_neg (by omega), if_neg (by omega), if_neg hwhole, hdrop, htake,
      ih _ (by omega), hnext]
    rcases decodeChunkedFrom _ rest with e | _ | body
    · rfl
    · rfl
    · simp only [Except.map, Option.map_some, List.append_assoc]

theorem pull_eq {bytes body rest : Bytes} (h : Chunks bytes body rest) :
    ChunkDecoder.pull .size bytes =
      (ChunkDecoder.pull .size rest).map (decodedFirst body) := by
  induction h with
  | nil bytes => exact (ChunkDecoder.decodedFirst_nil _).symm
  | cons hline hsize hpos hdata hending more ih =>
    rw [ChunkDecoder.pull_line hline, hsize]
    simp only
    rw [dif_neg (Nat.ne_of_gt hpos), ChunkDecoder.pull_data_whole hpos hdata,
      ChunkDecoder.pull_dataCrlf hending, ih, ChunkDecoder.decodedFirst_append]

theorem decodeChunked_last {bytes body line rest : Bytes}
    (h : Chunks bytes body (line ++ 13 :: 10 :: rest)) (hline : findCrlf line = none)
    (hsize : parseSize line = some 0) (hfits : bytes.length < 2 ^ 63) :
    decodeChunked bytes = .ok (some body) := by
  rw [decodeChunked, h.decodeChunkedFrom_eq 0 (by omega), decodeChunkedFrom_line hline, hsize]
  show Except.ok (some (body ++ [])) = _
  rw [List.append_nil]

theorem pull_last {bytes body line rest : Bytes} (h : Chunks bytes body (line ++ 13 :: 10 :: rest))
    (hline : findCrlf line = none) (hsize : parseSize line = some 0) :
    ChunkDecoder.pull .size bytes =
      (ChunkDecoder.pull .trailer rest).map (decodedFirst body) := by
  rw [h.pull_eq, ChunkDecoder.pull_line hline, hsize]
  rfl

end Chunks

/-- What a `Vec<u8>` can hold. -/
abbrev Buffer := {bytes : Bytes // bytes.length < 2 ^ 63}

/-- Once the bytes of `reads` have arrived, `decode_chunked` answers with a body if and only if the
`ChunkDecoder` has come to its end, and then both have given the same bytes. -/
def Agree (reads : List Chunk) : Prop :=
  ∃ answer, decodeChunked (received reads) = .ok answer ∧
    ∀ body, answer = some body ↔ ∃ left, streamChunked reads = .ok (.done, body, left)

/-- No body from the first decoder, and the second has not come to its end. -/
theorem agree_of_incomplete {reads : List Chunk}
    (hdecode : decodeChunked (received reads) = .ok none)
    (hpull : ∀ body left, ChunkDecoder.pull .size (received reads) ≠ .ok (.done, body, left)) :
    Agree reads := by
  refine ⟨none, hdecode, ?_⟩
  intro body
  constructor
  · rintro ⟨⟩
  · rintro ⟨left, hdone⟩
    rw [streamChunked_received] at hdone
    exact absurd hdone (hpull body left)

theorem agree_of_ended {reads : List Chunk} {rest : Bytes}
    (hfits : (received reads).length < 2 ^ 63) (h : Ended (received reads) rest) :
    Agree reads ↔ findCrlf rest ≠ none := by
  obtain ⟨body, line, hchunks, hline, hsize⟩ := h
  have hdecode := hchunks.decodeChunked_last hline hsize hfits
  have hpull := hchunks.pull_last hline hsize
  constructor
  · rintro ⟨answer, hanswer, hagree⟩ hnone
    rw [hdecode] at hanswer
    cases hanswer
    obtain ⟨left, hdone⟩ := (hagree body).mp rfl
    rw [streamChunked_received, hpull, ChunkDecoder.pull_trailer_none hnone] at hdone
    cases hdone
  · intro hsome
    obtain ⟨i, hi⟩ := Option.ne_none_iff_exists'.mp hsome
    obtain ⟨left, hrest, htrailer⟩ := findCrlf_some hi
    have hdone : streamChunked reads = .ok (.done, body, left) := by
      rw [streamChunked_received, hpull, hrest, ChunkDecoder.pull_trailer htrailer]
      show Except.ok (ChunkState.done, body ++ [], left) = _
      rw [List.append_nil]
    refine ⟨some body, hdecode, ?_⟩
    intro body'
    rw [hdone]
    constructor
    · rintro ⟨⟩
      exact ⟨left, rfl⟩
    · rintro ⟨left', ⟨⟩⟩
      rfl

/-- After `0\r\n`, the first read of a body `0\r\n\r\n`, one decoder is at the end and the other
is not. -/
theorem not_agree : ¬ Agree [⟨[48, 13, 10], List.cons_ne_nil _ _⟩] := by
  intro h
  have hsize : parseSize [48] = some 0 := by decide
  have hended : Ended (received [⟨[48, 13, 10], List.cons_ne_nil _ _⟩]) [] :=
    ⟨[], [48], .nil _, rfl, hsize⟩
  exact (agree_of_ended (by decide) hended).mp h rfl

theorem Overruns.decodeChunked_eq {bytes : Bytes} (h : Overruns bytes)
    (hfits : bytes.length < 2 ^ 63) : decodeChunked bytes = .error .panicked := by
  obtain ⟨body, line, rest, size, hchunks, hline, hsize, hend, hover⟩ := h
  have hless := hchunks.length_le
  rw [List.length_append, List.length_cons, List.length_cons] at hless
  have hpos : size ≠ 0 := by omega
  rw [decodeChunked, hchunks.decodeChunkedFrom_eq 0 (by omega), decodeChunkedFrom_line hline, hsize]
  simp only [List.length_append, List.length_cons]
  rw [if_neg hpos, if_neg (by omega), if_pos (by omega)]
  rfl

theorem not_agree_of_overruns {reads : List Chunk} (hfits : (received reads).length < 2 ^ 63)
    (h : Overruns (received reads)) : ¬ Agree reads := by
  rintro ⟨answer, hanswer, -⟩
  rw [h.decodeChunked_eq hfits] at hanswer
  cases hanswer

theorem pull_data_short {size : Nat} (hpos : 0 < size) {rest : Bytes}
    (hrest : rest.length < size + 2) (body left : Bytes) :
    ChunkDecoder.pull (.data size hpos) rest ≠ .ok (.done, body, left) := by
  by_cases hpart : rest.length < size
  · rw [ChunkDecoder.pull_data_part hpos hpart]
    rintro ⟨⟩
  · let data := rest.take size
    let ending := rest.drop size
    have hsplit : rest = data ++ ending := (List.take_append_drop size rest).symm
    have hdata : data.length = size := by
      rw [List.length_take]
      omega
    have hending : ending.length < 2 := by
      rw [List.length_drop]
      omega
    rw [hsplit, ChunkDecoder.pull_data_whole hpos hdata, ChunkDecoder.pull_dataCrlf_short hending]
    rintro ⟨⟩

theorem decodedFirst_ne_done {progress : Except ChunkError (ChunkState × Bytes × Bytes)}
    (h : ∀ body left, progress ≠ .ok (.done, body, left)) (part body left : Bytes) :
    progress.map (decodedFirst part) ≠ .ok (.done, body, left) := by
  rcases progress with e | ⟨state, out, buf⟩
  · rintro ⟨⟩
  · intro heq
    have hstate : state = .done := congrArg Prod.fst (Except.ok.inj heq)
    exact h out buf (by rw [hstate])

theorem ended_or_unfinished (bytes : Bytes) : (∃ rest, Ended bytes rest) ∨
    ∀ body left, ChunkDecoder.pull .size bytes ≠ .ok (.done, body, left) := by
  obtain ⟨body, rest, hchunks, hstop⟩ := Chunks.exists_stop bytes
  have hpull := hchunks.pull_eq
  cases hstop with
  | «open» hline =>
    right
    rw [hpull, ChunkDecoder.pull_none hline]
    apply decodedFirst_ne_done
    rintro out buf ⟨⟩
  | malformed hline hsize after =>
    right
    rw [hpull, ChunkDecoder.pull_line hline, hsize]
    rintro out buf ⟨⟩
  | last hline hsize after => exact .inl ⟨after, body, _, hchunks, hline, hsize⟩
  | short hline hsize hpos hrest =>
    right
    rw [hpull, ChunkDecoder.pull_line hline, hsize]
    simp only
    rw [dif_neg (Nat.ne_of_gt hpos)]
    apply decodedFirst_ne_done
    exact pull_data_short hpos hrest

theorem ended_or_undecoded {bytes : Bytes} (hfits : bytes.length < 2 ^ 63) :
    (∃ rest, Ended bytes rest) ∨ decodeChunked bytes = .ok none ∨ Overruns bytes := by
  obtain ⟨body, rest, hchunks, hstop⟩ := Chunks.exists_stop bytes
  have hdecode := hchunks.decodeChunkedFrom_eq 0 (by omega)
  have hless := hchunks.length_le
  cases hstop with
  | «open» hline =>
    right; left
    rw [decodeChunked, hdecode, decodeChunkedFrom_none hline]
    rfl
  | malformed hline hsize after =>
    right; left
    rw [decodeChunked, hdecode, decodeChunkedFrom_line hline, hsize]
    rfl
  | last hline hsize after => exact .inl ⟨after, body, _, hchunks, hline, hsize⟩
  | @short line after size hline hsize hpos hrest =>
    right
    have hplace : bytes.length - (line ++ 13 :: 10 :: after).length + (line.length + 2) =
        bytes.length - after.length := by
      simp only [List.length_append, List.length_cons] at hless ⊢
      omega
    rw [decodeChunked, hdecode, decodeChunkedFrom_line hline, hsize, Nat.zero_add, hplace]
    simp only
    rw [if_neg (Nat.ne_of_gt hpos)]
    by_cases hend : 2 ^ 64 ≤ bytes.length - after.length + size
    · rw [if_pos hend]
      exact .inl rfl
    · by_cases hover : 2 ^ 64 ≤ bytes.length - after.length + size + 2
      · exact .inr ⟨body, line, after, size, hchunks, hline, hsize, Nat.lt_of_not_le hend, hover⟩
      · rw [if_neg hend, if_neg hover, if_pos hrest]
        exact .inl rfl

theorem agree_iff {reads : List Chunk} (hfits : (received reads).length < 2 ^ 63) :
    Agree reads ↔ (∀ rest, Ended (received reads) rest → findCrlf rest ≠ none) ∧
      ¬ Overruns (received reads) := by
  constructor
  · intro h
    exact ⟨fun rest hended => (agree_of_ended hfits hended).mp h,
      fun hover => not_agree_of_overruns hfits hover h⟩
  · rintro ⟨hlast, hover⟩
    by_cases hended : ∃ rest, Ended (received reads) rest
    · obtain ⟨rest, hended⟩ := hended
      exact (agree_of_ended hfits hended).mpr (hlast rest hended)
    · have hdecode := (ended_or_undecoded hfits).resolve_left hended
      have hpull := (ended_or_unfinished (received reads)).resolve_left hended
      exact agree_of_incomplete (hdecode.resolve_right hover) hpull

/-- The two decoders agree through a body, wherever its reads end, if and only if the body neither
holds the line of its zero-size chunk nor announces a size that overruns. Over all of a body they
agree if and only if a line ends after that of the zero-size chunk, and no size overruns. -/
theorem agree_throughout_iff (body : Buffer) :
    ((∀ reads, received reads <+: body.val → Agree reads) ↔
      (∀ rest, ¬ Ended body.val rest) ∧ ¬ Overruns body.val) ∧
    ∀ reads, received reads = body.val →
      (Agree reads ↔ (∀ rest, Ended body.val rest → findCrlf rest ≠ none) ∧
        ¬ Overruns body.val) := by
  have hwhole : ∀ reads, received reads = body.val → (Agree reads ↔
      (∀ rest, Ended body.val rest → findCrlf rest ≠ none) ∧ ¬ Overruns body.val) := by
    intro reads hreads
    rw [← hreads]
    exact agree_iff (hreads ▸ body.property)
  refine ⟨⟨?_, ?_⟩, hwhole⟩
  · intro h
    constructor
    · intro rest hended
      obtain ⟨before, hbefore, hlast⟩ := hended.cut
      obtain ⟨reads, rfl⟩ := exists_received before
      have hfits := lt_of_le_of_lt hbefore.length_le body.property
      exact ((agree_iff hfits).mp (h reads hbefore)).1 [] hlast rfl
    · obtain ⟨reads, hreads⟩ := exists_received body.val
      have hagree := h reads (hreads ▸ List.prefix_refl _)
      exact ((hwhole reads hreads).mp hagree).2
  · rintro ⟨hlast, hover⟩ reads ⟨ext, hext⟩
    have hfits : (received reads).length < 2 ^ 63 := by
      have hlen := congrArg List.length hext
      have hbody := body.property
      rw [List.length_append] at hlen
      omega
    apply (agree_iff hfits).mpr
    constructor
    · intro rest hended
      have happend := hended.append ext
      rw [hext] at happend
      exact absurd happend (hlast _)
    · intro hfront
      have happend := hfront.append ext
      rw [hext] at happend
      exact hover happend

end Kernway
