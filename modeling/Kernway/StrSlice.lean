import Kernway.Str

namespace Kernway

section Slices

/-- Why an index into a `&str` panics. -/
inductive SliceFault
  | outOfRange
  | midCharacter
  deriving DecidableEq

/-- `str::is_char_boundary`. -/
def isCharBoundary (s : Text) (i : Nat) : Bool :=
  match (encodeUtf8 s)[i]? with
  | some b => !(128 ≤ b.toNat && b.toNat < 192)
  | none => i = (encodeUtf8 s).length

/-- `&s[i..j]`. -/
def strSlice (s : Text) (i j : Nat) : Except SliceFault Text :=
  if j < i || (encodeUtf8 s).length < j then .error .outOfRange
  else if isCharBoundary s i && isCharBoundary s j then
    .ok ((decodeUtf8 (((encodeUtf8 s).drop i).take (j - i))).getD [])
  else .error .midCharacter

/-- Where a loop stops that counts an index up over bytes that satisfy a test. -/
def scanWhile (p : UInt8 → Bool) (s : Text) (i : Nat) : Nat :=
  i + (((encodeUtf8 s).drop i).takeWhile p).length

/-- The byte index `i` stands before `rest`. -/
def StandsAt (s : Text) (i : Nat) (rest : Text) : Prop :=
  ∃ done, s = done ++ rest ∧ i = (encodeUtf8 done).length

theorem utf8EncodeChar_head {c : Char} {b : UInt8}
    (h : (String.utf8EncodeChar c).head? = some b) : ¬ (128 ≤ b.toNat ∧ b.toNat < 192) := by
  unfold String.utf8EncodeChar at h
  dsimp only at h
  split at h
  next =>
    cases h
    simp only [UInt8.toNat_ofNat']
    omega
  next =>
    split at h
    next =>
      cases h
      simp only [UInt8.toNat_ofNat']
      omega
    next =>
      split at h
      next =>
        cases h
        simp only [UInt8.toNat_ofNat']
        omega
      next =>
        cases h
        simp only [UInt8.toNat_ofNat']
        omega

variable {s mid rest : Text} {i : Nat}

theorem standsAt_start (s : Text) : StandsAt s 0 s := ⟨[], rfl, rfl⟩

namespace StandsAt

theorem append (h : StandsAt s i (mid ++ rest)) : StandsAt s (i + (encodeUtf8 mid).length) rest := by
  obtain ⟨done, hs, hi⟩ := h
  refine ⟨done ++ mid, ?_, ?_⟩
  · rw [hs, List.append_assoc]
  · rw [hi, encodeUtf8_append, List.length_append]

theorem drop (h : StandsAt s i rest) : (encodeUtf8 s).drop i = encodeUtf8 rest := by
  obtain ⟨done, rfl, rfl⟩ := h
  rw [encodeUtf8_append, List.drop_left]

theorem length (h : StandsAt s i rest) :
    i + (encodeUtf8 rest).length = (encodeUtf8 s).length := by
  obtain ⟨done, rfl, rfl⟩ := h
  rw [encodeUtf8_append, List.length_append]

theorem byte (h : StandsAt s i rest) : (encodeUtf8 s)[i]? = (encodeUtf8 rest).head? := by
  have hdrop := h.drop
  rw [← hdrop, List.head?_drop]

theorem isCharBoundary (h : StandsAt s i rest) : isCharBoundary s i = true := by
  unfold Kernway.isCharBoundary
  cases rest with
  | nil =>
    have hlen := h.length
    rw [h.byte]
    simpa using hlen
  | cons c rest =>
    rw [h.byte, encodeUtf8_cons, List.head?_append_of_ne_nil _ (utf8EncodeChar_ne_nil c)]
    cases hb : (String.utf8EncodeChar c).head? with
    | none => exact absurd (List.head?_eq_none_iff.mp hb) (utf8EncodeChar_ne_nil c)
    | some b =>
      have hhead := utf8EncodeChar_head hb
      have hout : b.toNat < 128 ∨ 192 ≤ b.toNat := by omega
      simpa using hout

theorem slice (h : StandsAt s i (mid ++ rest)) :
    strSlice s i (i + (encodeUtf8 mid).length) = .ok mid := by
  have hlen := h.length
  rw [encodeUtf8_append, List.length_append] at hlen
  have hrange : ¬ (i + (encodeUtf8 mid).length < i ∨
      (encodeUtf8 s).length < i + (encodeUtf8 mid).length) := by omega
  rw [strSlice, if_neg (by simpa using hrange), h.isCharBoundary, h.append.isCharBoundary,
    Bool.and_self, if_pos rfl, h.drop, Nat.add_sub_cancel_left, encodeUtf8_append, List.take_left,
    decodeUtf8_encodeUtf8]
  rfl

theorem slice_end (h : StandsAt s i rest) : strSlice s i (encodeUtf8 s).length = .ok rest := by
  have hnil : StandsAt s i (rest ++ []) := by rwa [List.append_nil]
  have hslice := hnil.slice
  rwa [h.length] at hslice

end StandsAt

end Slices

section Tests

/-- A byte literal such as `b'<'`. -/
def byteOf (c : Char) : UInt8 := UInt8.ofNat c.toNat

theorem toNat_byteOf {c : Char} (hc : c.toNat ≤ 127) : (byteOf c).toNat = c.toNat := by
  simp only [byteOf, UInt8.toNat_ofNat']
  omega

theorem encodeUtf8_ascii {s : Text} (h : ∀ c ∈ s, c.toNat ≤ 127) : encodeUtf8 s = s.map byteOf := by
  induction s with
  | nil => rfl
  | cons c s ih =>
    rw [encodeUtf8_cons, utf8EncodeChar_ascii (h c List.mem_cons_self),
      ih fun d hd => h d (List.mem_cons_of_mem c hd)]
    rfl

theorem mem_iff_toNat_mem {c : Char} {cs : List Char} : c ∈ cs ↔ c.toNat ∈ cs.map Char.toNat :=
  (List.mem_map_of_injective fun _ _ => Char.toNat_inj.mp).symm

theorem byteOf_inj_iff {c d : Char} (hc : c.toNat ≤ 127) (hd : d.toNat ≤ 127) :
    byteOf c = byteOf d ↔ c = d := by
  constructor
  · intro h
    have hnat := congrArg UInt8.toNat h
    rw [toNat_byteOf hc, toNat_byteOf hd] at hnat
    exact Char.toNat_inj.mp hnat
  · rintro rfl
    rfl

/-- A test of bytes that holds of the bytes of a character where a test of characters does. -/
structure SameTest (p : UInt8 → Bool) (q : Char → Bool) : Prop where
  ascii : ∀ c : Char, c.toNat ≤ 127 → p (byteOf c) = q c
  high : ∃ v, (∀ b : UInt8, 127 < b.toNat → p b = v) ∧ ∀ c : Char, 127 < c.toNat → q c = v

theorem sameTest_eq {d : Char} (hd : d.toNat ≤ 127) :
    SameTest (fun b => b = byteOf d) (fun c => c = d) where
  ascii := by
    intro c hc
    simp only [byteOf_inj_iff hc hd]
  high := by
    refine ⟨false, fun b hb => ?_, fun c hc => ?_⟩
    · apply decide_eq_false
      rintro rfl
      rw [toNat_byteOf hd] at hb
      omega
    · apply decide_eq_false
      rintro rfl
      omega

theorem sameTest_toNat {n : Nat} (hn : n ≤ 127) :
    SameTest (fun b => b.toNat = n) (fun c => c.toNat = n) where
  ascii := by
    intro c hc
    simp only [toNat_byteOf hc]
  high := by
    refine ⟨false, fun b hb => ?_, fun c hc => ?_⟩
    · apply decide_eq_false
      omega
    · apply decide_eq_false
      omega

variable {p p' : UInt8 → Bool} {q q' : Char → Bool}

theorem SameTest.or (h : SameTest p q) (h' : SameTest p' q') :
    SameTest (fun b => p b || p' b) (fun c => q c || q' c) where
  ascii := by
    intro c hc
    rw [h.ascii c hc, h'.ascii c hc]
  high := by
    obtain ⟨v, hp, hq⟩ := h.high
    obtain ⟨v', hp', hq'⟩ := h'.high
    refine ⟨v || v', fun b hb => ?_, fun c hc => ?_⟩
    · rw [hp b hb, hp' b hb]
    · rw [hq c hc, hq' c hc]

theorem SameTest.not (h : SameTest p q) : SameTest (fun b => !p b) (fun c => !q c) where
  ascii := by
    intro c hc
    rw [h.ascii c hc]
  high := by
    obtain ⟨v, hp, hq⟩ := h.high
    refine ⟨!v, fun b hb => ?_, fun c hc => ?_⟩
    · rw [hp b hb]
    · rw [hq c hc]

theorem SameTest.takeWhile (h : SameTest p q) (s : Text) :
    (encodeUtf8 s).takeWhile p = encodeUtf8 (s.takeWhile q) := by
  induction s with
  | nil => rfl
  | cons c s ih =>
    rw [encodeUtf8_cons]
    by_cases hc : c.toNat ≤ 127
    · rw [utf8EncodeChar_ascii hc, List.singleton_append]
      have hpq : p (UInt8.ofNat c.toNat) = q c := h.ascii c hc
      cases hq : q c with
      | true =>
        rw [List.takeWhile_cons_of_pos (hpq.trans hq), ih, List.takeWhile_cons_of_pos hq,
          encodeUtf8_cons, utf8EncodeChar_ascii hc]
        rfl
      | false =>
        rw [List.takeWhile_cons_of_neg (by simp [hpq, hq]), List.takeWhile_cons_of_neg (by simp [hq])]
        rfl
    · obtain ⟨v, hp, hq⟩ := h.high
      have hbytes : ∀ b ∈ String.utf8EncodeChar c, p b = v :=
        fun b hb => hp b (utf8EncodeChar_high (by omega) hb)
      have hqc := hq c (by omega)
      cases v with
      | true =>
        rw [List.takeWhile_append_of_pos hbytes, ih, List.takeWhile_cons_of_pos hqc, encodeUtf8_cons]
      | false =>
        rw [List.takeWhile_cons_of_neg (by simp [hqc])]
        obtain ⟨b, bs, hne⟩ := List.exists_cons_of_ne_nil (utf8EncodeChar_ne_nil c)
        have hb := hbytes b (by rw [hne]; exact List.mem_cons_self)
        rw [hne, List.cons_append, List.takeWhile_cons_of_neg (by simp [hb])]
        rfl

theorem SameTest.head (h : SameTest p q) (s : Text) :
    (encodeUtf8 s).head?.all p = s.head?.all q := by
  cases s with
  | nil => rfl
  | cons c s =>
    rw [encodeUtf8_cons, List.head?_append_of_ne_nil _ (utf8EncodeChar_ne_nil c), List.head?_cons,
      Option.all_some]
    by_cases hc : c.toNat ≤ 127
    · rw [utf8EncodeChar_ascii hc]
      exact h.ascii c hc
    · obtain ⟨v, hp, hq⟩ := h.high
      obtain ⟨b, bs, hne⟩ := List.exists_cons_of_ne_nil (utf8EncodeChar_ne_nil c)
      have hb : b ∈ String.utf8EncodeChar c := by rw [hne]; exact List.mem_cons_self
      rw [hne, hq c (by omega)]
      exact hp b (utf8EncodeChar_high (by omega) hb)

variable {s rest : Text} {i : Nat}

theorem StandsAt.scanWhile_eq (h : StandsAt s i rest) (ht : SameTest p q) :
    scanWhile p s i = i + (encodeUtf8 (rest.takeWhile q)).length := by
  rw [scanWhile, h.drop, ht.takeWhile]

theorem StandsAt.scanWhile (h : StandsAt s i rest) (ht : SameTest p q) :
    StandsAt s (scanWhile p s i) (rest.dropWhile q) := by
  rw [h.scanWhile_eq ht]
  apply StandsAt.append
  rwa [List.takeWhile_append_dropWhile]

theorem StandsAt.slice_scanWhile (h : StandsAt s i rest) (ht : SameTest p q) :
    strSlice s i (Kernway.scanWhile p s i) = .ok (rest.takeWhile q) := by
  have hsplit : StandsAt s i (rest.takeWhile q ++ rest.dropWhile q) := by
    rwa [List.takeWhile_append_dropWhile]
  rw [h.scanWhile_eq ht, hsplit.slice]

/-- What a byte tells where an index stands. -/
theorem StandsAt.byte_eq_iff (h : StandsAt s i rest) {d : Char} (hd : d.toNat ≤ 127) :
    (encodeUtf8 s)[i]? = some (byteOf d) ↔ rest.head? = some d := by
  rw [h.byte]
  cases rest with
  | nil => simp
  | cons c rest =>
    rw [encodeUtf8_cons, List.head?_append_of_ne_nil _ (utf8EncodeChar_ne_nil c), List.head?_cons]
    by_cases hc : c.toNat ≤ 127
    · have hsame := (sameTest_eq hd).ascii c hc
      rw [utf8EncodeChar_ascii hc, List.head?_cons, Option.some_inj, Option.some_inj]
      exact decide_eq_decide.mp hsame
    · constructor
      · intro hb
        have hhigh := utf8EncodeChar_high (c := c) (by omega) (List.mem_of_mem_head? hb)
        rw [toNat_byteOf hd] at hhigh
        omega
      · intro hcd
        obtain rfl := Option.some.inj hcd
        exact absurd hd hc

theorem StandsAt.tail (h : StandsAt s i rest) {d : Char} (hd : d.toNat ≤ 127)
    (hrest : rest.head? = some d) : StandsAt s (i + 1) rest.tail := by
  obtain ⟨t, rfl⟩ := List.head?_eq_some_iff.mp hrest
  have happ : StandsAt s i ([d] ++ t) := h
  have hnext := happ.append
  rwa [encodeUtf8_cons, utf8EncodeChar_ascii hd] at hnext

theorem StandsAt.tail_of_byte (h : StandsAt s i rest) {d : Char} (hd : d.toNat ≤ 127)
    (hb : (encodeUtf8 s)[i]? = some (byteOf d)) :
    ∃ rest', rest = d :: rest' ∧ StandsAt s (i + 1) rest' := by
  have hhead := (h.byte_eq_iff hd).mp hb
  obtain ⟨rest', rfl⟩ := List.head?_eq_some_iff.mp hhead
  exact ⟨rest', rfl, h.tail hd hhead⟩

/-- A character that is followed by an ASCII byte after its first is itself ASCII. -/
theorem StandsAt.ascii_of_next {c d : Char} (h : StandsAt s i (c :: rest)) (hd : d.toNat ≤ 127)
    (hb : (encodeUtf8 s)[i + 1]? = some (byteOf d)) : c.toNat ≤ 127 := by
  by_contra hc
  have hlong : 1 < (String.utf8EncodeChar c).length := by
    have hv : ¬ c.val.toNat ≤ 0x7f := hc
    simp only [String.utf8EncodeChar, hv, if_false]
    split
    next => simp
    next =>
      split
      next => simp
      next => simp
  rw [← List.getElem?_drop, h.drop, encodeUtf8_cons, List.getElem?_append_left hlong] at hb
  have hhigh := utf8EncodeChar_high (c := c) (by omega) (List.mem_of_getElem? hb)
  rw [toNat_byteOf hd] at hhigh
  omega

/-- An index is at the end only with nothing behind it. -/
theorem StandsAt.eof_iff (h : StandsAt s i rest) : (encodeUtf8 s).length ≤ i ↔ rest = [] := by
  have hlen := h.length
  constructor
  · intro hle
    have hzero : (encodeUtf8 rest).length = 0 := by omega
    cases rest with
    | nil => rfl
    | cons c rest =>
      have hpos := List.length_pos_iff.mpr (utf8EncodeChar_ne_nil c)
      rw [encodeUtf8_cons, List.length_append] at hzero
      omega
  · rintro rfl
    rw [encodeUtf8_nil, List.length_nil] at hlen
    omega

end Tests

end Kernway
