import Kernway.HttpParser

namespace Kernway

theorem findHeadEndFrom_none {buf : Bytes} {pos n : Nat} (h : cutAt 10 buf = none) :
    findHeadEndFrom buf pos n = none := by
  rw [findHeadEndFrom]
  split <;> simp_all

theorem findHeadEndFrom_some {buf line rest : Bytes} {pos n : Nat}
    (h : cutAt 10 buf = some (line, rest)) :
    findHeadEndFrom buf pos n =
      if stripSuffix 13 line = [] then some (pos + line.length + 1, n)
      else findHeadEndFrom rest (pos + line.length + 1) (n + 1) := by
  rw [findHeadEndFrom]
  split <;> simp_all

theorem findHeadEndFrom_bounds {buf : Bytes} {pos n e k : Nat}
    (h : findHeadEndFrom buf pos n = some (e, k)) : pos < e ∧ e ≤ pos + buf.length := by
  induction hl : buf.length using Nat.strongRecOn generalizing buf pos n with
  | _ l ih =>
    cases hc : cutAt 10 buf with
    | none => simp [findHeadEndFrom_none hc] at h
    | some p =>
      obtain ⟨line, rest⟩ := p
      have hlen := cutAt_length hc
      rw [findHeadEndFrom_some hc] at h
      split at h
      next =>
        cases Option.some.inj h
        omega
      next =>
        obtain ⟨hlo, hhi⟩ := ih rest.length (by omega) h rfl
        omega

theorem findHeadEndFrom_append {buf : Bytes} {pos n e k : Nat}
    (h : findHeadEndFrom buf pos n = some (e, k)) (ext : Bytes) :
    findHeadEndFrom (buf ++ ext) pos n = some (e, k) := by
  induction hl : buf.length using Nat.strongRecOn generalizing buf pos n with
  | _ l ih =>
    cases hc : cutAt 10 buf with
    | none => simp [findHeadEndFrom_none hc] at h
    | some p =>
      obtain ⟨line, rest⟩ := p
      have hlen := cutAt_length hc
      rw [findHeadEndFrom_some hc] at h
      rw [findHeadEndFrom_some (cutAt_append hc ext)]
      split at h
      next hs => rw [if_pos hs, h]
      next hs => rw [if_neg hs, ih rest.length (by omega) h rfl]

/-- A head end not found yet lies past everything that has arrived. -/
theorem findHeadEndFrom_late {buf ext : Bytes} {pos n e k : Nat}
    (hn : findHeadEndFrom buf pos n = none)
    (h : findHeadEndFrom (buf ++ ext) pos n = some (e, k)) : pos + buf.length < e := by
  induction hl : buf.length using Nat.strongRecOn generalizing buf pos n with
  | _ l ih =>
    cases hc : cutAt 10 buf with
    | none =>
      cases hce : cutAt 10 (buf ++ ext) with
      | none => simp [findHeadEndFrom_none hce] at h
      | some p =>
        obtain ⟨line, rest⟩ := p
        have hline : buf.length ≤ line.length := by
          obtain ⟨heq, _⟩ := cutAt_eq_some_iff.mp hce
          by_contra hlt
          refine cutAt_eq_none_iff.mp hc ?_
          have hget : (buf ++ ext)[line.length]? = some 10 := by simp [heq]
          rw [List.getElem?_append_left (by omega)] at hget
          exact List.mem_of_getElem? hget
        rw [findHeadEndFrom_some hce] at h
        split at h
        next => cases Option.some.inj h; omega
        next => have := (findHeadEndFrom_bounds h).1; omega
    | some p =>
      obtain ⟨line, rest⟩ := p
      have hlen := cutAt_length hc
      rw [findHeadEndFrom_some hc] at hn
      rw [findHeadEndFrom_some (cutAt_append hc ext)] at h
      split at hn
      next => simp at hn
      next hs =>
        rw [if_neg hs] at h
        have := ih rest.length (by omega) hn h rfl
        omega

theorem findHeadEnd_bounds {buf : Bytes} {e k : Nat} (h : findHeadEnd buf = some (e, k)) :
    0 < e ∧ e ≤ buf.length := by
  simpa using findHeadEndFrom_bounds h

theorem parseHeadInner_bounds {buf : Bytes} {r : Request} {e c : Nat}
    (h : parseHeadInner buf = .ok (some (r, e, c))) : 0 < e ∧ e ≤ buf.length := by
  unfold parseHeadInner at h
  split at h
  next => split at h <;> simp at h
  next he =>
    split at h
    next => simp at h
    next =>
      split at h
      next => simp at h
      next head _ =>
        cases hp : parseHeadText head with
        | error e => simp [hp, bind, Except.bind] at h
        | ok p =>
          simp only [hp, bind, Except.bind, pure, Except.pure, Except.ok.injEq, Option.some.injEq,
            Prod.mk.injEq] at h
          obtain ⟨_, rfl, _⟩ := h
          exact findHeadEnd_bounds he

theorem parseHeadInner_found {buf : Bytes} {e k : Nat} (h : findHeadEnd buf = some (e, k))
    (ext : Bytes) : parseHeadInner (buf ++ ext) = parseHeadInner buf := by
  have hle := (findHeadEnd_bounds h).2
  have hext : findHeadEnd (buf ++ ext) = some (e, k) := findHeadEndFrom_append h ext
  simp only [parseHeadInner, h, hext, List.take_append_of_le_length hle]

theorem parseHeadInner_unfound {buf : Bytes} (h : findHeadEnd buf = none) :
    parseHeadInner buf = if buf.length > maxHeadBytes then .error .tooLarge else .ok none := by
  simp only [parseHeadInner, h]

/-- A decided head is decided the same way on a longer buffer. -/
theorem parseHeadInner_append {buf : Bytes} (h : parseHeadInner buf ≠ .ok none) (ext : Bytes) :
    parseHeadInner (buf ++ ext) = parseHeadInner buf := by
  cases hf : findHeadEnd buf with
  | some p => exact parseHeadInner_found hf ext
  | none =>
    have hlong : maxHeadBytes < buf.length := by
      by_contra hs
      exact h (by rw [parseHeadInner_unfound hf, if_neg hs])
    rw [parseHeadInner_unfound hf, if_pos hlong]
    cases he : findHeadEnd (buf ++ ext) with
    | none =>
      rw [parseHeadInner_unfound he, if_pos]
      simp only [List.length_append]
      omega
    | some p =>
      have hlate : 0 + buf.length < p.1 := findHeadEndFrom_late hf he
      have hbig : p.1 > maxHeadBytes := by omega
      simp only [parseHeadInner, he, if_pos hbig]

theorem parseBytes_of_error {buf : Bytes} {e : ParseError} (h : parseHeadInner buf = .error e) :
    parseBytes buf = .error e := by
  simp only [parseBytes, h, bind, Except.bind]

theorem parseBytes_of_none {buf : Bytes} (h : parseHeadInner buf = .ok none) :
    parseBytes buf = .ok .incomplete := by
  simp only [parseBytes, h, bind, Except.bind, pure, Except.pure]

theorem parseBytes_of_head {buf : Bytes} {r : Request} {e c : Nat}
    (h : parseHeadInner buf = .ok (some (r, e, c))) :
    parseBytes buf =
      if c > maxBodyBytes then .error .tooLarge
      else if buf.length < e + c then .ok .incomplete
      else .ok (.complete { r with body := (buf.take (e + c)).drop e } (e + c)) := by
  simp only [parseBytes, h, bind, Except.bind, pure, Except.pure, throw, throwThe,
    MonadExceptOf.throw]

theorem parseBytes_complete_iff {buf : Bytes} {req : Request} {n : Nat} :
    parseBytes buf = .ok (.complete req n) ↔
      ∃ r e c, parseHeadInner buf = .ok (some (r, e, c)) ∧ c ≤ maxBodyBytes ∧
        e + c ≤ buf.length ∧ n = e + c ∧ req = { r with body := (buf.take (e + c)).drop e } := by
  cases h : parseHeadInner buf with
  | error e => simp [parseBytes_of_error h]
  | ok o =>
    cases o with
    | none => simp [parseBytes_of_none h]
    | some p =>
      obtain ⟨r, e, c⟩ := p
      rw [parseBytes_of_head h]
      constructor
      · intro hp
        split_ifs at hp with hc hl
        · simp at hp
        simp only [Except.ok.injEq, Parsed.complete.injEq] at hp
        exact ⟨r, e, c, rfl, by omega, by omega, hp.2.symm, hp.1.symm⟩
      · rintro ⟨r', e', c', heq, hc, hl, rfl, rfl⟩
        simp only [Except.ok.injEq, Option.some.injEq, Prod.mk.injEq] at heq
        obtain ⟨rfl, rfl, rfl⟩ := heq
        rw [if_neg (by omega), if_neg (by omega)]

theorem parseBytes_append_complete {buf : Bytes} {req : Request} {n : Nat}
    (h : parseBytes buf = .ok (.complete req n)) (ext : Bytes) :
    parseBytes (buf ++ ext) = .ok (.complete req n) := by
  obtain ⟨r, e, c, hh, hc, hl, hn, hr⟩ := parseBytes_complete_iff.1 h
  refine parseBytes_complete_iff.2 ⟨r, e, c, ?_, hc, ?_, hn, ?_⟩
  · rw [parseHeadInner_append (by simp [hh]), hh]
  · simp only [List.length_append]
    omega
  · rw [hr, List.take_append_of_le_length hl]

theorem parseBytes_append_error {buf : Bytes} {e : ParseError} (h : parseBytes buf = .error e)
    (ext : Bytes) : parseBytes (buf ++ ext) = .error e := by
  cases hh : parseHeadInner buf with
  | error e' =>
    have he : parseHeadInner (buf ++ ext) = .error e' := by
      rw [parseHeadInner_append (by simp [hh]), hh]
    rw [parseBytes_of_error he, ← parseBytes_of_error hh, h]
  | ok o =>
    cases o with
    | none => simp [parseBytes_of_none hh] at h
    | some p =>
      obtain ⟨r, i, c⟩ := p
      have he : parseHeadInner (buf ++ ext) = .ok (some (r, i, c)) := by
        rw [parseHeadInner_append (by simp [hh]), hh]
      rw [parseBytes_of_head hh] at h
      split_ifs at h with hc hl
      rw [parseBytes_of_head he, if_pos hc, h]

theorem parseBytes_consumed {buf : Bytes} {req : Request} {n : Nat}
    (h : parseBytes buf = .ok (.complete req n)) : 0 < n ∧ n ≤ buf.length := by
  obtain ⟨r, e, c, hh, _, hl, rfl, _⟩ := parseBytes_complete_iff.1 h
  have := parseHeadInner_bounds hh
  omega

def Parsed.toOption : Parsed → Option (Request × Nat)
  | .complete r n => some (r, n)
  | .incomplete => none

theorem map_toOption_eq_some {x : Except ParseError Parsed} {r : Request} {n : Nat} :
    x.map Parsed.toOption = .ok (some (r, n)) ↔ x = .ok (.complete r n) := by
  rcases x with e | ⟨r', n'⟩ | _ <;> simp [Except.map, Parsed.toOption]

theorem map_toOption_eq_error {x : Except ParseError Parsed} {e : ParseError} :
    x.map Parsed.toOption = .error e ↔ x = .error e := by
  rcases x with e' | p <;> simp [Except.map]

theorem map_toOption_eq_none {x : Except ParseError Parsed} :
    x.map Parsed.toOption = .ok none ↔ x = .ok .incomplete := by
  rcases x with e | ⟨r', n'⟩ | _ <;> simp [Except.map, Parsed.toOption]

/-- `parse_bytes` as a decoder whose answers do not change as bytes arrive. -/
def requestDecoder : Incremental UInt8 Request ParseError where
  decode buf := (parseBytes buf).map Parsed.toOption
  empty := by decide +kernel
  stable h ext := map_toOption_eq_some.mpr
    (parseBytes_append_complete (map_toOption_eq_some.mp h) ext)
  stable_error h ext := map_toOption_eq_error.mpr
    (parseBytes_append_error (map_toOption_eq_error.mp h) ext)
  consumed_pos h := (parseBytes_consumed (map_toOption_eq_some.mp h)).1
  consumed_le h := (parseBytes_consumed (map_toOption_eq_some.mp h)).2

/-- The loop that parses the accumulated buffer after every read, hands on each whole request,
drops the bytes it consumed, and stops at the first error. -/
def readRequests (reads : List Bytes) : Progress UInt8 Request ParseError :=
  requestDecoder.run reads

theorem parseBytes_strict_prefix {buf part : Bytes} {req : Request} {n : Nat}
    (h : parseBytes buf = .ok (.complete req n)) (hp : part <+: buf.take n)
    (hlt : part.length < n) : parseBytes part = .ok .incomplete :=
  map_toOption_eq_none.1
    (Incremental.decode_strict_prefix (d := requestDecoder) (map_toOption_eq_some.2 h) hp hlt)

/-- Parsing does not depend on how the bytes arrive: an answer survives any extension, a whole
request is incomplete on every strict prefix, and two cuts of one stream read the same. -/
theorem parseBytes_independent_of_arrival :
    (∀ buf ext r n, parseBytes buf = .ok (.complete r n) →
      parseBytes (buf ++ ext) = .ok (.complete r n)) ∧
    (∀ buf ext e, parseBytes buf = .error e → parseBytes (buf ++ ext) = .error e) ∧
    (∀ buf r n, parseBytes buf = .ok (.complete r n) → n ≤ buf.length ∧
      ∀ part, part <+: buf.take n → part.length < n → parseBytes part = .ok .incomplete) ∧
    (∀ reads reads', reads.flatten = reads'.flatten → readRequests reads = readRequests reads') := by
  refine ⟨fun _ ext _ _ h => parseBytes_append_complete h ext,
    fun _ ext _ h => parseBytes_append_error h ext,
    fun _ _ _ h => ⟨(parseBytes_consumed h).2, fun _ => parseBytes_strict_prefix h⟩, ?_⟩
  intro reads reads' h
  rw [readRequests, readRequests, Incremental.run_eq_drain, Incremental.run_eq_drain, h]

end Kernway
