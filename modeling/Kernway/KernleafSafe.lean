import Kernway.KernleafBytes

namespace Kernway.Kernleaf

section Tracks

variable {src rest : Text} {pos : Nat}

/-- A reading by indices that comes to what the reading of the text comes to, and to the place where
it stops. -/
def Tracks {α : Type} (src : Text) (res : Reading (α × Nat)) :
    Except TemplateError (α × Text) → Prop
  | .error e => res = .error (.error e)
  | .ok (a, rest) => ∃ pos, res = .ok (a, pos) ∧ StandsAt src pos rest

theorem sameTest_whitespace : SameTest isAsciiWhitespaceByte isAsciiWhitespace :=
  ((((sameTest_eq (d := ' ') (by decide)).or (sameTest_eq (d := '\t') (by decide))).or
    (sameTest_eq (d := '\n') (by decide))).or (sameTest_toNat (by decide))).or
      (sameTest_eq (d := '\r') (by decide))

theorem sliceAt_eq {mid : Text} (h : StandsAt src pos (mid ++ rest)) :
    sliceAt src pos (pos + (encodeUtf8 mid).length) = .ok mid := by
  rw [sliceAt, h.slice]
  rfl

theorem sliceAt_end (h : StandsAt src pos rest) :
    sliceAt src pos (encodeUtf8 src).length = .ok rest := by
  rw [sliceAt, h.slice_end]
  rfl

theorem sliceAt_scanWhile {p : UInt8 → Bool} {q : Char → Bool} (h : StandsAt src pos rest)
    (ht : SameTest p q) : sliceAt src pos (scanWhile p src pos) = .ok (rest.takeWhile q) := by
  rw [sliceAt, h.slice_scanWhile ht]
  rfl

theorem isEof_eq (h : StandsAt src pos rest) : isEof src pos = rest.isEmpty := by
  have hiff := h.eof_iff
  cases rest with
  | nil => exact decide_eq_true (hiff.mpr rfl)
  | cons c rest =>
    apply decide_eq_false
    intro hle
    cases hiff.mp hle

theorem byteAt_eq_iff (h : StandsAt src pos rest) {d : Char} (hd : d.toNat ≤ 127) :
    byteAt src pos = some (byteOf d) ↔ rest.head? = some d := h.byte_eq_iff hd

theorem startsWithAt_eq (h : StandsAt src pos rest) (pat : String) :
    startsWithAt src pos pat = .ok (pat.toList.isPrefixOf rest) := by
  rw [startsWithAt, sliceAt_end h]
  rfl

theorem readNameAt_eq (h : StandsAt src pos rest) :
    ∃ stop, readNameAt src pos = .ok ((readName rest).1, stop) ∧
      StandsAt src stop (readName rest).2 := by
  have htest : SameTest (fun b => !(isAsciiWhitespaceByte b || b = byteOf '>' || b = byteOf '/' ||
      b = byteOf '=')) isNameChar :=
    (((sameTest_whitespace.or (sameTest_eq (d := '>') (by decide))).or
      (sameTest_eq (d := '/') (by decide))).or (sameTest_eq (d := '=') (by decide))).not
  refine ⟨_, ?_, h.scanWhile htest⟩
  rw [readNameAt, sliceAt_scanWhile h htest]
  rfl

theorem skipWsAt_stands (h : StandsAt src pos rest) :
    StandsAt src (skipWsAt src pos) (skipWs rest) := h.scanWhile sameTest_whitespace

theorem readAttrValueAt_eq (h : StandsAt src pos rest) :
    ∃ stop, readAttrValueAt src pos = .ok ((readAttrValue rest).1, stop) ∧
      StandsAt src stop (readAttrValue rest).2 := by
  cases rest with
  | nil =>
    have hbyte : byteAt src pos = none := by
      rw [byteAt, h.byte]
      rfl
    rw [readAttrValueAt, hbyte]
    exact ⟨pos, rfl, h⟩
  | cons c t =>
    have hquoted : ∀ d : Char, d.toNat ≤ 127 → c = d → ∃ stop, (do
        let stop := scanWhile (fun b => !(b = byteOf d)) src (pos + 1)
        let value ← sliceAt src (pos + 1) stop
        (.ok (value, if isEof src stop then stop else stop + 1) : Reading (Text × Nat))) =
          .ok (t.takeWhile (· ≠ d), stop) ∧ StandsAt src stop (t.dropWhile (· ≠ d)).tail := by
      rintro d hd rfl
      have hnext : StandsAt src (pos + 1) t := h.tail hd rfl
      have htest := (sameTest_eq hd).not
      have hq : (fun x => !decide (x = c)) = fun x => decide (x ≠ c) := by
        funext x
        simp
      rw [hq] at htest
      have hstop := hnext.scanWhile htest
      dsimp only
      rw [sliceAt_scanWhile hnext htest]
      refine ⟨_, rfl, ?_⟩
      rw [isEof_eq hstop]
      cases hdrop : t.dropWhile (· ≠ c) with
      | nil =>
        rw [hdrop] at hstop
        exact hstop
      | cons x u =>
        have hx : x = c := by
          have hhead := List.head?_dropWhile_not (fun x => decide (x ≠ c)) t
          rw [hdrop] at hhead
          simpa using hhead
        subst hx
        rw [hdrop] at hstop
        exact hstop.tail hd rfl
    obtain ⟨b, hb⟩ : ∃ b, byteAt src pos = some b := by
      obtain ⟨b, bs, hne⟩ := List.exists_cons_of_ne_nil (utf8EncodeChar_ne_nil c)
      refine ⟨b, ?_⟩
      rw [byteAt, h.byte, encodeUtf8_cons, hne]
      rfl
    have hquote : ∀ d : Char, d.toNat ≤ 127 → (b = byteOf d ↔ c = d) := by
      intro d hd
      have hiff := byteAt_eq_iff h hd
      rw [hb, List.head?_cons, Option.some_inj, Option.some_inj] at hiff
      exact hiff
    rw [readAttrValueAt, hb, readAttrValue]
    dsimp only
    have hquotes : (b = byteOf '"' ∨ b = byteOf '\'') ↔ (c = '"' ∨ c = '\'') :=
      or_congr (hquote '"' (by decide)) (hquote '\'' (by decide))
    by_cases hc : c = '"' ∨ c = '\''
    · rw [if_pos (hquotes.mpr hc), if_pos hc]
      have hascii : c.toNat ≤ 127 := by rcases hc with rfl | rfl <;> decide
      rw [(hquote c hascii).mpr rfl]
      exact hquoted c hascii rfl
    · rw [if_neg (mt hquotes.mp hc), if_neg hc]
      have htest : SameTest (fun b => !(isAsciiWhitespaceByte b || b = byteOf '>' ||
          b = byteOf '/')) isUnquotedChar :=
        ((sameTest_whitespace.or (sameTest_eq (d := '>') (by decide))).or
          (sameTest_eq (d := '/') (by decide))).not
      refine ⟨_, ?_, h.scanWhile htest⟩
      rw [sliceAt_scanWhile h htest]
      rfl

theorem ascii_of_not_isNameChar {c : Char} (h : isNameChar c = false) : c.toNat ≤ 127 := by
  unfold isNameChar isAsciiWhitespace at h
  simp only [Bool.not_eq_false', Bool.or_eq_true, decide_eq_true_eq] at h
  rcases h with ((((((rfl | rfl) | rfl) | h) | rfl) | rfl) | rfl) | rfl
  all_goals first | decide | omega

theorem readAttrsAt_tracks {src : Text} {steps : Nat} : ∀ {attrs : List (Text × Text)} {pos : Nat}
    {rest : Text}, StandsAt src pos rest → rest.length < steps →
      Tracks src (readAttrsAt src steps attrs pos)
        ((readAttrs attrs rest).map fun r => ((r.1, r.2.1), r.2.2)) := by
  induction steps with
  | zero =>
    intro attrs pos rest _ hsteps
    omega
  | succ steps ih =>
    intro attrs pos rest h hsteps
    rw [readAttrs_eq, readAttrsAt]
    dsimp only
    have hws := skipWsAt_stands h
    have hlen := (skipWs_suffix rest).length_le
    rw [isEof_eq hws]
    cases hs : skipWs rest with
    | nil =>
      have hnone : readAttr rest = none := by
        rw [readAttr, hs]
      rw [hnone]
      rfl
    | cons c t =>
      rw [hs] at hws hlen
      rw [List.length_cons] at hlen
      rw [List.isEmpty_cons, if_neg Bool.false_ne_true]
      by_cases hgt : c = '>'
      · have hstep : readAttr rest = some (.done false t) := by
          rw [readAttr, hs]
          exact if_pos hgt
        have hhead : (c :: t).head? = some '>' := by rw [hgt]; rfl
        rw [hstep, if_pos ((byteAt_eq_iff hws (by decide)).mpr hhead)]
        exact ⟨_, rfl, hws.tail (by decide) hhead⟩
      have hbyte : ¬ byteAt src (skipWsAt src pos) = some (byteOf '>') := by
        rw [byteAt_eq_iff hws (by decide)]
        intro hhead
        exact hgt (Option.some.inj hhead)
      rw [if_neg hbyte, startsWithAt_eq hws]
      have hpat : "/>".toList.isPrefixOf (c :: t) = true ↔ c = '/' ∧ t.head? = some '>' := by
        cases t with
        | nil => simp [List.isPrefixOf]
        | cons d t =>
          have hchars : "/>".toList = [ '/', '>'] := rfl
          rw [hchars]
          simp only [List.isPrefixOf, Bool.and_true, Bool.and_eq_true, beq_iff_eq, List.head?_cons,
            Option.some_inj]
          exact and_congr eq_comm eq_comm
      by_cases hself : c = '/' ∧ t.head? = some '>'
      · obtain ⟨hc, hd⟩ := hself
        have hstep : readAttr rest = some (.done true t.tail) := by
          rw [readAttr, hs]
          dsimp only
          rw [if_neg hgt, if_pos ⟨hc, hd⟩]
        have hhead : (c :: t).head? = some '/' := by rw [hc]; rfl
        have hbehind : StandsAt src (skipWsAt src pos + 1) t := hws.tail (by decide) hhead
        rw [hstep, hpat.mpr ⟨hc, hd⟩]
        exact ⟨_, rfl, hbehind.tail (by decide) hd⟩
      have hplain : "/>".toList.isPrefixOf (c :: t) = false := by
        cases hp : "/>".toList.isPrefixOf (c :: t) with
        | false => rfl
        | true => exact absurd (hpat.mp hp) hself
      obtain ⟨after, hname, hafter⟩ := readNameAt_eq hws
      have hstep : readAttr rest =
          if (readName (c :: t)).1 = [] then some (.skip t)
          else if (skipWs (readName (c :: t)).2).head? = some '=' then
            some (.attr (readName (c :: t)).1
              (readAttrValue (skipWs (skipWs (readName (c :: t)).2).tail)).1
              (readAttrValue (skipWs (skipWs (readName (c :: t)).2).tail)).2)
          else some (.attr (readName (c :: t)).1 [] (skipWs (readName (c :: t)).2)) := by
        rw [readAttr, hs]
        dsimp only
        rw [if_neg hgt, if_neg hself]
      have hin : ∀ {step}, readAttr rest = some step → step.In rest := fun hstep => readAttr_in hstep
      rw [hplain, hname]
      simp only [bind, Except.bind, Bool.false_eq_true, if_false]
      by_cases hempty : (readName (c :: t)).1 = []
      · rw [if_pos hempty] at hstep
        have hc : isNameChar c = false := by
          cases hc : isNameChar c with
          | false => rfl
          | true =>
            rw [readName, List.takeWhile_cons_of_pos hc] at hempty
            cases hempty
        rw [if_pos hempty, hstep]
        exact ih (hws.tail (ascii_of_not_isNameChar hc) rfl) (by omega)
      rw [if_neg hempty] at hstep ⊢
      have hwsAfter := skipWsAt_stands hafter
      by_cases hequals : (skipWs (readName (c :: t)).2).head? = some '='
      · rw [if_pos hequals] at hstep
        obtain ⟨stop, hvalue, hstop⟩ :=
          readAttrValueAt_eq (skipWsAt_stands (hwsAfter.tail (by decide) hequals))
        have hshort := (hin hstep).2.1
        rw [if_pos ((byteAt_eq_iff hwsAfter (by decide)).mpr hequals), hvalue, hstep]
        exact ih hstop (by omega)
      · rw [if_neg hequals] at hstep
        have hshort := (hin hstep).2.1
        rw [if_neg (mt (byteAt_eq_iff hwsAfter (by decide)).mp hequals), hstep]
        exact ih hwsAfter (by omega)

end Tracks

section RawText

/-- One encoding is the beginning of another only if its text is. -/
theorem encodeUtf8_prefix_iff {a b : Text} : encodeUtf8 a <+: encodeUtf8 b ↔ a <+: b := by
  constructor
  · intro h
    induction a generalizing b with
    | nil => exact List.nil_prefix
    | cons c a ih =>
      obtain ⟨t, ht⟩ := h
      cases b with
      | nil =>
        rw [encodeUtf8_cons, encodeUtf8_nil] at ht
        have hne := utf8EncodeChar_ne_nil c
        simp_all
      | cons d b =>
        rw [encodeUtf8_cons, encodeUtf8_cons, List.append_assoc] at ht
        have hc := firstChar_encodeUtf8 c (encodeUtf8 a ++ t)
        rw [ht, firstChar_encodeUtf8] at hc
        obtain rfl := Option.some.inj hc
        obtain ⟨u, rfl⟩ := ih ⟨t, List.append_cancel_left ht⟩
        exact ⟨u, rfl⟩
  · rintro ⟨t, rfl⟩
    exact ⟨encodeUtf8 t, (encodeUtf8_append a t).symm⟩

theorem length_encodeUtf8_lower (s : Text) :
    (encodeUtf8 (toAsciiLowercase s)).length = (encodeUtf8 s).length := by
  rw [encodeUtf8_toAsciiLowercase, List.length_map]

/-- Bytes are compared without regard to case as the characters are. -/
theorem take_lower_eq_iff (name u : Text) :
    ((encodeUtf8 u).take (encodeUtf8 name).length).map asciiLowerByte =
        (encodeUtf8 name).map asciiLowerByte ↔
      eqIgnoreAsciiCase (u.take name.length) name = true := by
  have hname : (toAsciiLowercase name).length = name.length := List.length_map _
  rw [List.map_take, ← encodeUtf8_toAsciiLowercase, ← encodeUtf8_toAsciiLowercase,
    ← length_encodeUtf8_lower name, eq_comm, ← List.prefix_iff_eq_take, encodeUtf8_prefix_iff,
    List.prefix_iff_eq_take, hname, eqIgnoreAsciiCase, beq_iff_eq, eq_comm]
  simp only [toAsciiLowercase, List.map_take]

theorem closesRaw_eq (name s : Text) :
    closesRaw (encodeUtf8 name) (encodeUtf8 s) = isCloseTag name s := by
  have hstart := standsAt_start s
  unfold closesRaw
  by_cases hopen : s.head? = some '<'
  · obtain ⟨t, rfl⟩ := List.head?_eq_some_iff.mp hopen
    have hbytes : encodeUtf8 ('<' :: t) = byteOf '<' :: encodeUtf8 t := rfl
    have hnext := hstart.tail (by decide) hopen
    have hslash := hnext.byte_eq_iff (d := '/') (by decide)
    rw [Nat.zero_add] at hslash
    by_cases ht : t.head? = some '/'
    · obtain ⟨u, rfl⟩ := List.head?_eq_some_iff.mp ht
      have hbytes' : encodeUtf8 ('<' :: '/' :: u) = byteOf '<' :: byteOf '/' :: encodeUtf8 u := rfl
      have hdrop : (encodeUtf8 ('<' :: '/' :: u)).drop (2 + (encodeUtf8 name).length) =
          (encodeUtf8 u).drop (encodeUtf8 name).length := by
        rw [hbytes', Nat.add_comm 2]
        rfl
      rw [hslash.mpr ht, hdrop, hbytes']
      simp only [List.head?_cons, decide_true, Bool.true_and, Bool.and_true, List.length_cons,
        List.drop_succ_cons, List.drop_zero, isCloseTag]
      cases heq : eqIgnoreAsciiCase (u.take name.length) name with
      | false =>
        have hne := mt (take_lower_eq_iff name u).mp (by simp [heq])
        rw [beq_eq_false_iff_ne.mpr hne, Bool.and_false]
        rfl
      | true =>
        have hsame := (take_lower_eq_iff name u).mpr heq
        have hlen := congrArg List.length hsame
        rw [List.length_map, List.length_map, List.length_take] at hlen
        have hbound : 2 + (encodeUtf8 name).length ≤ (encodeUtf8 u).length + 1 + 1 := by omega
        have hfront : (encodeUtf8 (u.take name.length)).length = (encodeUtf8 name).length := by
          rw [← length_encodeUtf8_lower, beq_iff_eq.mp heq, length_encodeUtf8_lower]
        have hbehind : (encodeUtf8 u).drop (encodeUtf8 name).length =
            encodeUtf8 (u.drop name.length) := by
          rw [← hfront, ← List.take_append_drop name.length u, encodeUtf8_append]
          simp
        rw [decide_eq_true hbound, hsame, beq_self_eq_true, Bool.true_and, Bool.true_and, hbehind]
        exact ((sameTest_eq (d := '>') (by decide)).or sameTest_whitespace).head _
    · have hne : ¬ (encodeUtf8 ('<' :: t))[1]? = some (byteOf '/') := mt hslash.mp ht
      rw [decide_eq_false hne]
      simp only [Bool.and_false, Bool.false_and]
      unfold isCloseTag
      split
      next u heq =>
        cases heq
        exact absurd rfl ht
      next => rfl
  · have hne : ¬ (encodeUtf8 s).head? = some (byteOf '<') := by
      have hbyte := hstart.byte_eq_iff (d := '<') (by decide)
      rw [← List.head?_eq_getElem?] at hbyte
      exact mt hbyte.mp hopen
    rw [decide_eq_false hne]
    simp only [Bool.false_and]
    unfold isCloseTag
    split
    next u => exact absurd rfl hopen
    next => rfl

theorem rawLength_high (needle t : Bytes) {bs : Bytes} (h : ∀ b ∈ bs, 127 < b.toNat) :
    rawLength needle (bs ++ t) = bs.length + rawLength needle t := by
  induction bs with
  | nil => simp
  | cons b bs ih =>
    obtain ⟨hb, hbs⟩ := List.forall_mem_cons.mp h
    have hne : ¬ b = byteOf '<' := by
      rintro rfl
      rw [toNat_byteOf (by decide)] at hb
      revert hb
      decide
    have hno : closesRaw needle (b :: (bs ++ t)) = false := by
      simp [closesRaw, hne]
    rw [List.cons_append, rawLength, hno, if_neg Bool.false_ne_true, ih hbs, List.length_cons]
    omega

/-- The loop over bytes stops where the close tag stands in the text. -/
theorem rawLength_eq (name s : Text) :
    rawLength (encodeUtf8 name) (encodeUtf8 s) = (encodeUtf8 (readRawText name s).1).length := by
  induction s with
  | nil => rfl
  | cons c s ih =>
    have hcloses := closesRaw_eq name (c :: s)
    rw [readRawText]
    by_cases hc : c.toNat ≤ 127
    · rw [encodeUtf8_cons, utf8EncodeChar_ascii hc, List.singleton_append] at hcloses ⊢
      rw [rawLength, hcloses]
      split
      next => rfl
      next =>
        rw [ih, encodeUtf8_cons, utf8EncodeChar_ascii hc, List.length_append, List.length_singleton]
        omega
    · have hhigh : ∀ b ∈ String.utf8EncodeChar c, 127 < b.toNat :=
        fun b hb => utf8EncodeChar_high (by omega) hb
      have hno : isCloseTag name (c :: s) = false := by
        unfold isCloseTag
        split
        next u heq =>
          cases heq
          exact absurd (by decide) hc
        next => rfl
      rw [hno, if_neg Bool.false_ne_true, encodeUtf8_cons, rawLength_high _ _ hhigh, ih,
        encodeUtf8_cons, List.length_append]

end RawText

section Nodes

variable {F : Type} (parseExpr : Text → Except TemplateError (Expr F))

theorem ofTemplate_bind {α β : Type} (x : Except TemplateError α)
    (f : α → Except TemplateError β) :
    ofTemplate (x >>= f) = ofTemplate x >>= fun a => ofTemplate (f a) := by
  cases x <;> rfl

theorem length_encodeUtf8_lt_iff {a b s : Text} (ha : a <+: s) (hb : b <+: s) :
    (encodeUtf8 a).length < (encodeUtf8 b).length ↔ a.length < b.length := by
  have hlonger : ∀ {a b : Text}, a <+: s → b <+: s → a.length < b.length →
      (encodeUtf8 a).length < (encodeUtf8 b).length := by
    intro a b ha hb hlt
    obtain ⟨t, rfl⟩ := List.prefix_of_prefix_length_le ha hb (Nat.le_of_lt hlt)
    cases t with
    | nil => simp at hlt
    | cons c t =>
      have hpos := List.length_pos_iff.mpr (utf8EncodeChar_ne_nil c)
      rw [encodeUtf8_append, encodeUtf8_cons, List.length_append, List.length_append]
      omega
  constructor
  · intro hlt
    apply Nat.lt_of_not_le
    intro hle
    rcases Nat.lt_or_eq_of_le hle with hlt' | heq
    · have := hlonger hb ha hlt'
      omega
    · obtain ⟨t, rfl⟩ := List.prefix_of_prefix_length_le ha hb (Nat.le_of_eq heq.symm)
      have ht : t = [] := by
        rw [List.length_append] at heq
        exact List.eq_nil_of_length_eq_zero (by omega)
      rw [ht, List.append_nil] at hlt
      omega
  · exact hlonger ha hb

theorem cutText_front {pat s before after : Text} (h : cutText pat s = some (before, after)) :
    before <+: s := by
  rw [cutText_eq_some h, List.append_assoc]
  exact List.prefix_append _ _

theorem nextInlineAt_eq (s : Text) :
    nextInlineAt s = (nextInline s).map fun r => ((encodeUtf8 r.1).length, r.2.1) := by
  unfold nextInlineAt nextInline findStr
  cases hesc : cutText "[[".toList s with
  | none => cases cutText "[(".toList s <;> rfl
  | some esc =>
    cases hraw : cutText "[(".toList s with
    | none => rfl
    | some raw =>
      obtain ⟨a, after⟩ := esc
      obtain ⟨b, after'⟩ := raw
      have hiff := length_encodeUtf8_lt_iff (cutText_front hesc) (cutText_front hraw)
      simp only [Option.map_some]
      by_cases hlt : a.length < b.length
      · rw [if_pos (hiff.mpr hlt), if_pos hlt]
        rfl
      · rw [if_neg (mt hiff.mp hlt), if_neg hlt]
        rfl

theorem nextInline_opening {s before after : Text} {isEscaped : Bool}
    (h : nextInline s = some (before, isEscaped, after)) :
    ∃ opening, (encodeUtf8 opening).length = 2 ∧ s = before ++ (opening ++ after) := by
  have hcut : ∀ {pat a b : Text}, cutText pat s = some (a, b) → s = a ++ (pat ++ b) := by
    intro pat a b hcut
    rw [cutText_eq_some hcut, List.append_assoc]
  have hesc : (encodeUtf8 "[[".toList).length = 2 := by decide
  have hraw : (encodeUtf8 "[(".toList).length = 2 := by decide
  unfold nextInline at h
  split at h
  next ha hb =>
    split at h
    next =>
      cases h
      exact ⟨_, hesc, hcut ha⟩
    next =>
      cases h
      exact ⟨_, hraw, hcut hb⟩
  next ha _ =>
    cases h
    exact ⟨_, hesc, hcut ha⟩
  next hb =>
    cases h
    exact ⟨_, hraw, hcut hb⟩
  next => cases h

theorem compileParts_eq (s : Text) :
    compileParts parseExpr s = match nextInline s with
      | none => .ok (if s = [] then [] else [.lit s])
      | some (before, isEscaped, after) => match cutText (inlineClose isEscaped) after with
        | none => .error (unclosedInline isEscaped)
        | some (inner, rest) => (do
          let e ← parseExpr (trim inner)
          let parts ← compileParts parseExpr rest
          .ok ((if before = [] then [] else [.lit before]) ++
            (if isEscaped then .escaped e else .raw e) :: parts)) := by
  rw [compileParts]
  split
  next hnext => rw [hnext]
  next before isEscaped after hnext =>
    rw [hnext]
    dsimp only
    split
    next hcut => rw [hcut]
    next inner rest hcut => rw [hcut]

theorem compilePartsAt_eq {steps : Nat} : ∀ {s : Text}, s.length < steps →
    compilePartsAt parseExpr steps s = ofTemplate (compileParts parseExpr s) := by
  induction steps with
  | zero =>
    intro s h
    omega
  | succ steps ih =>
    intro s h
    rw [compilePartsAt, nextInlineAt_eq, compileParts_eq]
    cases hnext : nextInline s with
    | none => rfl
    | some next =>
      obtain ⟨before, isEscaped, after⟩ := next
      obtain ⟨opening, hopening, hs⟩ := nextInline_opening hnext
      have hstart : StandsAt s 0 (before ++ (opening ++ after)) := by
        rw [← hs]
        exact standsAt_start s
      have hbefore := sliceAt_eq hstart
      have hbehind := hstart.append.append
      rw [hopening] at hbehind
      have hafter := sliceAt_end hbehind
      rw [Nat.zero_add] at hbefore hafter
      simp only [Option.map_some, hbefore, hafter, bind, Except.bind, findStr]
      cases hcut : cutText (inlineClose isEscaped) after with
      | none => rfl
      | some cut =>
        obtain ⟨inner, rest⟩ := cut
        have hsplit := cutText_eq_some hcut
        rw [List.append_assoc] at hsplit
        have hinside : StandsAt after 0 (inner ++ (inlineClose isEscaped ++ rest)) := by
          rw [← hsplit]
          exact standsAt_start after
        have hinner := sliceAt_eq hinside
        have hclosed := hinside.append.append
        have hclose : (encodeUtf8 (inlineClose isEscaped)).length = 2 := by
          cases isEscaped <;> decide
        rw [hclose] at hclosed
        have hrest := sliceAt_end hclosed
        rw [Nat.zero_add] at hinner hrest
        simp only [Option.map_some, hinner, hrest]
        have hempty : (encodeUtf8 before).length = 0 ↔ before = [] := by
          constructor
          · intro hzero
            cases before with
            | nil => rfl
            | cons c before =>
              have hpos := List.length_pos_iff.mpr (utf8EncodeChar_ne_nil c)
              rw [encodeUtf8_cons, List.length_append] at hzero
              omega
          · rintro rfl
            rfl
        have hshort : rest.length < steps := by
          have hopened : opening ≠ [] := by
            rintro rfl
            cases hopening
          have hpos := List.length_pos_iff.mpr hopened
          have hlen := congrArg List.length hs
          have hlen' := congrArg List.length hsplit
          simp only [List.length_append] at hlen hlen'
          omega
        cases parseExpr (trim inner) with
        | error e => rfl
        | ok e =>
          simp only [ofTemplate, Except.mapError]
          rw [ih hshort]
          simp only [hempty]
          cases compileParts parseExpr rest <;> rfl

theorem compileTextAt_eq {steps : Nat} {raw : Text} (h : raw.length < steps) :
    compileTextAt parseExpr steps raw = ofTemplate (compileText parseExpr raw) := by
  unfold compileTextAt compileText
  split
  next => rfl
  next =>
    rw [compilePartsAt_eq parseExpr h]
    cases compileParts parseExpr raw <;> rfl

theorem cutText_singleton (d : Char) (s : Text) : cutText [d] s = cutAt d s := by
  induction s with
  | nil => rfl
  | cons c s ih =>
    rw [cutText, cutAt, ih]
    by_cases hc : c = d
    · subst hc
      simp [List.isPrefixOf]
    · have hne : ([d].isPrefixOf (c :: s)) = false := by
        simp [List.isPrefixOf, Ne.symm hc]
      rw [hne, if_neg Bool.false_ne_true, if_neg hc]

variable {src : Text} {pos : Nat}

theorem readCommentAt_tracks {s : Text} (h : StandsAt src pos ('<' :: s))
    (hcomment : "!--".toList.isPrefixOf s = true) :
    Tracks src (readCommentAt (F := F) src pos) (values (readComment (s.drop 3))) := by
  obtain ⟨t, rfl⟩ := List.isPrefixOf_iff_prefix.mp hcomment
  have hopening : StandsAt src pos ("<!--".toList ++ t) := h
  have hbody := hopening.append
  have hlen : (encodeUtf8 "<!--".toList).length = 4 := by decide
  have hdrop : ("!--".toList ++ t).drop 3 = t := List.drop_left' (by decide)
  rw [hlen] at hbody
  rw [readCommentAt, readComment_values, hdrop, sliceAt_end hbody]
  simp only [bind, Except.bind, findStr]
  cases hcut : cutText "-->".toList t with
  | none => rfl
  | some cut =>
    obtain ⟨body, rest⟩ := cut
    have hsplit := cutText_eq_some hcut
    rw [List.append_assoc] at hsplit
    rw [hsplit] at hbody
    have hclose : (encodeUtf8 "-->".toList).length = 3 := by decide
    have hrest := hbody.append.append
    rw [hclose] at hrest
    simp only [Option.map_some, sliceAt_eq hbody]
    exact ⟨_, rfl, hrest⟩

theorem readDeclarationAt_tracks {s : Text} (h : StandsAt src pos ('<' :: s)) :
    Tracks src (readDeclarationAt (F := F) src pos) (values (readDeclaration s)) := by
  rw [readDeclarationAt, readDeclaration_values, sliceAt_end h]
  simp only [bind, Except.bind, findStr, cutText_singleton]
  have hopen : cutAt '>' ('<' :: s) = (cutAt '>' s).map fun p => ('<' :: p.1, p.2) := by
    rw [cutAt, if_neg (by decide)]
  rw [hopen]
  cases hcut : cutAt '>' s with
  | none => rfl
  | some cut =>
    obtain ⟨body, rest⟩ := cut
    obtain ⟨hsplit, -⟩ := cutAt_eq_some_iff.mp hcut
    have htext : '<' :: s = ('<' :: body ++ ['>']) ++ rest := by
      rw [hsplit]
      simp
    rw [htext] at h
    have hlen : pos + (encodeUtf8 ('<' :: body ++ ['>'])).length =
        pos + (encodeUtf8 ('<' :: body)).length + 1 := by
      rw [encodeUtf8_append, List.length_append]
      rfl
    have hslice := sliceAt_eq h
    have hrest := h.append
    rw [hlen] at hslice hrest
    simp only [Option.map_some, hslice]
    exact ⟨_, rfl, hrest⟩

theorem closeTagAt_eq {rest : Text} (h : StandsAt src pos rest) :
    ∃ stop, closeTagAt src pos = .ok stop ∧ StandsAt src stop (skipCloseTag rest) := by
  rw [closeTagAt, startsWithAt_eq h]
  simp only [bind, Except.bind]
  have hchars : "</".toList = [ '<', '/'] := rfl
  cases hclose : "</".toList.isPrefixOf rest with
  | false =>
    rw [if_neg Bool.false_ne_true]
    have hskip : skipCloseTag rest = rest := by
      unfold skipCloseTag
      split
      next t =>
        rw [hchars] at hclose
        simp [List.isPrefixOf] at hclose
      next => rfl
    rw [hskip]
    exact ⟨pos, rfl, h⟩
  | true =>
    obtain ⟨t, rfl⟩ := List.isPrefixOf_iff_prefix.mp hclose
    have hlen : (encodeUtf8 "</".toList).length = 2 := by decide
    have hname := h.append
    rw [hlen] at hname
    obtain ⟨after, hread, hafter⟩ := readNameAt_eq hname
    have hws := skipWsAt_stands hafter
    rw [if_pos rfl, hread]
    simp only
    have hskip : skipCloseTag ("</".toList ++ t) =
        if (skipWs (readName t).2).head? = some '>' then (skipWs (readName t).2).tail
        else skipWs (readName t).2 := rfl
    rw [hskip]
    by_cases hgt : (skipWs (readName t).2).head? = some '>'
    · rw [if_pos hgt, if_pos ((byteAt_eq_iff hws (by decide)).mpr hgt)]
      exact ⟨_, rfl, hws.tail (by decide) hgt⟩
    · rw [if_neg hgt, if_neg (mt (byteAt_eq_iff hws (by decide)).mp hgt)]
      exact ⟨_, rfl, hws⟩

theorem readTextAt_tracks {c : Char} {s : Text} {steps : Nat} (h : StandsAt src pos (c :: s))
    (hc : c ≠ '<') (hsteps : s.length + 1 < steps) :
    Tracks src (readTextAt src parseExpr steps pos) (values (readText parseExpr c s)) := by
  have htest : SameTest (fun b => !(b = byteOf '<')) (fun c => !(c = '<')) :=
    (sameTest_eq (by decide)).not
  have hq : (fun x => !decide (x = '<')) = fun x : Char => decide (x ≠ '<') := by
    funext x
    simp
  rw [hq] at htest
  have hraw := sliceAt_scanWhile h htest
  have hstop := h.scanWhile htest
  have htake : (c :: s).takeWhile (· ≠ '<') = c :: s.takeWhile (· ≠ '<') := by
    rw [List.takeWhile_cons, if_pos (decide_eq_true hc)]
  have hdrop : (c :: s).dropWhile (· ≠ '<') = s.dropWhile (· ≠ '<') := by
    rw [List.dropWhile_cons, if_pos (decide_eq_true hc)]
  rw [htake] at hraw
  rw [hdrop] at hstop
  have hshort : (c :: s.takeWhile (· ≠ '<')).length < steps := by
    have := (List.takeWhile_sublist (fun x : Char => decide (x ≠ '<')) (l := s)).length_le
    rw [List.length_cons]
    omega
  rw [readTextAt, readText_values]
  simp only [bind, Except.bind, hraw]
  rw [compileTextAt_eq parseExpr hshort]
  cases compileText parseExpr (c :: s.takeWhile (· ≠ '<')) with
  | error e => rfl
  | ok node => exact ⟨_, rfl, hstop⟩

theorem readRawTextAt_eq {rest : Text} (steps : Nat) (tagLower : Text) (h : StandsAt src pos rest)
    (hsteps : rest.length < steps) :
    ∃ stop, StandsAt src stop (readRawText tagLower rest).2 ∧
      readRawTextAt src parseExpr steps tagLower pos =
        (ofTemplate (compileText parseExpr (readRawText tagLower rest).1)).map fun d => (d, stop) := by
  have happ := readRawText_append tagLower rest
  have hsplit : StandsAt src pos ((readRawText tagLower rest).1 ++ (readRawText tagLower rest).2) := by
    rwa [happ]
  have hshort : (readRawText tagLower rest).1.length < steps := by
    have hlen := congrArg List.length happ
    rw [List.length_append] at hlen
    omega
  refine ⟨_, hsplit.append, ?_⟩
  rw [readRawTextAt, h.drop, rawLength_eq]
  simp only [bind, Except.bind, sliceAt_eq hsplit]
  rw [compileTextAt_eq parseExpr hshort]
  cases ofTemplate (compileText parseExpr (readRawText tagLower rest).1) <;> rfl

theorem readElementAt_tracks {s : Text} {steps : Nat} (h : StandsAt src pos ('<' :: s))
    (hsteps : s.length < steps)
    (ih : ∀ {pos : Nat} {rest : Text}, StandsAt src pos rest → rest.length < s.length →
      Tracks src (parseNodesAt src parseExpr steps pos) (values (parseNodes parseExpr rest))) :
    Tracks src (readElementAt src parseExpr (steps + 1) pos) (values (readElement parseExpr s)) := by
  have hinside : StandsAt src (pos + 1) s := h.tail (by decide) rfl
  obtain ⟨pos₁, hname, hpos₁⟩ := readNameAt_eq hinside
  rw [readElementAt, readElement_values, hname]
  simp only [bind, Except.bind]
  by_cases hempty : (readName s).1 = []
  · rw [if_pos hempty, if_pos hempty]
    rfl
  rw [if_neg hempty, if_neg hempty]
  have hlen := readName_length s
  have hlenName := List.length_pos_iff.mpr hempty
  have hattrs : Tracks src (readAttrsAt src steps [] pos₁)
      ((readAttrs [] (readName s).2).map fun r => ((r.1, r.2.1), r.2.2)) :=
    readAttrsAt_tracks hpos₁ (by omega)
  cases hread : readAttrs [] (readName s).2 with
  | error e =>
    rw [hread] at hattrs
    have hat : readAttrsAt src steps [] pos₁ = .error (.error e) := hattrs
    rw [hat]
    rfl
  | ok read =>
    obtain ⟨attrs, selfClosing, rest⟩ := read
    rw [hread] at hattrs
    obtain ⟨pos₂, hat, hpos₂⟩ := hattrs
    have hbehind : StandsAt src pos₂ rest := hpos₂
    have hrest : rest.length ≤ (readName s).2.length := (readAttrs_in hread).1.length_le
    rw [hat]
    dsimp only
    generalize (readName s).1 = name at hlen hlenName
    generalize toAsciiLowercase name = tagLower
    generalize (selfClosing || voidTags.contains tagLower) = void
    cases void with
    | true =>
      rw [if_pos rfl, readContent, if_pos rfl]
      simp only [if_true]
      cases buildElement parseExpr name true attrs with
      | error e => rfl
      | ok el => exact ⟨pos₂, rfl, hpos₂⟩
    | false =>
      rw [if_neg Bool.false_ne_true, readContent, if_neg Bool.false_ne_true]
      simp only [Bool.false_eq_true, if_false]
      cases hraw : rawTextTags.contains tagLower with
      | true =>
        obtain ⟨pos₃, hpos₃, hraw'⟩ := readRawTextAt_eq parseExpr steps tagLower hbehind
          (by omega)
        rw [if_pos rfl, if_pos rfl, hraw']
        obtain ⟨pos₄, hclosed, hpos₄⟩ := closeTagAt_eq hpos₃
        cases compileText parseExpr (readRawText tagLower rest).1 with
        | error e => rfl
        | ok node =>
          simp only [ofTemplate, Except.mapError, Except.map, bind, Except.bind, hclosed]
          cases buildElement parseExpr name false attrs with
          | error e => rfl
          | ok el => exact ⟨pos₄, rfl, hpos₄⟩
      | false =>
        rw [if_neg Bool.false_ne_true, if_neg Bool.false_ne_true]
        have hnodes := ih hbehind (by omega)
        cases hcontent : values (parseNodes parseExpr rest) with
        | error e =>
          rw [hcontent] at hnodes
          have hat' : parseNodesAt src parseExpr steps pos₂ = .error (.error e) := hnodes
          rw [hat']
          rfl
        | ok read =>
          obtain ⟨children, rest₁⟩ := read
          rw [hcontent] at hnodes
          obtain ⟨pos₃, hat', hpos₃⟩ := hnodes
          obtain ⟨pos₄, hclosed, hpos₄⟩ := closeTagAt_eq hpos₃
          rw [hat']
          simp only [hclosed]
          cases buildElement parseExpr name false attrs with
          | error e => rfl
          | ok el => exact ⟨pos₄, rfl, hpos₄⟩

theorem readNodeAt_tracks {c : Char} {s : Text} (steps : Nat) (h : StandsAt src pos (c :: s))
    (hsteps : s.length + 1 < steps)
    (ih : ∀ {pos : Nat} {rest : Text}, StandsAt src pos rest → rest.length < s.length →
      Tracks src (parseNodesAt src parseExpr steps pos) (values (parseNodes parseExpr rest))) :
    Tracks src (readNodeAt src parseExpr (steps + 2) pos) (values (readNode parseExpr c s)) := by
  rw [readNodeAt, readNode_values]
  by_cases hc : c ≠ '<'
  · have hbyte : ¬ byteAt src pos = some (byteOf '<') := by
      rw [byteAt_eq_iff h (by decide)]
      intro hhead
      exact hc (Option.some.inj hhead)
    rw [if_neg hbyte, if_pos hc]
    exact readTextAt_tracks parseExpr h hc (by omega)
  rw [if_neg hc]
  obtain rfl := not_not.mp hc
  rw [if_pos ((byteAt_eq_iff h (by decide)).mpr rfl), startsWithAt_eq h, startsWithAt_eq h]
  simp only [bind, Except.bind]
  have hcomment : "<!--".toList.isPrefixOf ('<' :: s) = "!--".toList.isPrefixOf s := rfl
  have hdeclaration : "<!".toList.isPrefixOf ('<' :: s) = true ↔ s.head? = some '!' := by
    have hchars : "<!".toList = [ '<', '!'] := rfl
    rw [hchars]
    cases s with
    | nil => simp [List.isPrefixOf]
    | cons d s =>
      simp only [List.isPrefixOf, Bool.and_true, beq_self_eq_true, Bool.true_and, beq_iff_eq,
        List.head?_cons, Option.some_inj]
      exact eq_comm
  rw [hcomment]
  cases hbody : "!--".toList.isPrefixOf s with
  | true =>
    rw [if_pos rfl, if_pos rfl]
    exact readCommentAt_tracks h hbody
  | false =>
    rw [if_neg Bool.false_ne_true, if_neg Bool.false_ne_true]
    by_cases hbang : s.head? = some '!'
    · rw [if_pos (hdeclaration.mpr hbang), if_pos hbang]
      exact readDeclarationAt_tracks h
    · rw [if_neg (mt hdeclaration.mp hbang), if_neg hbang]
      exact readElementAt_tracks parseExpr h (by omega) ih

/-- The parser by indices does what the parser of the text does, in three steps for each character
and without a panic. -/
theorem parseNodesAt_tracks {steps : Nat} : ∀ {pos : Nat} {rest : Text}, StandsAt src pos rest →
    3 * rest.length + 2 < steps →
      Tracks src (parseNodesAt src parseExpr steps pos) (values (parseNodes parseExpr rest)) := by
  induction steps using Nat.strongRecOn with
  | _ steps ih =>
    intro pos rest h hsteps
    obtain ⟨steps, rfl⟩ : ∃ n, steps = n + 1 := ⟨steps - 1, by omega⟩
    rw [parseNodesAt, isEof_eq h]
    cases rest with
    | nil =>
      rw [parseNodes_nil]
      exact ⟨pos, rfl, h⟩
    | cons c s =>
      rw [List.length_cons] at hsteps
      rw [List.isEmpty_cons, if_neg Bool.false_ne_true, startsWithAt_eq h, parseNodes_cons]
      simp only [bind, Except.bind]
      have hclose : "</".toList.isPrefixOf (c :: s) = true ↔ c = '<' ∧ s.head? = some '/' := by
        have hchars : "</".toList = [ '<', '/'] := rfl
        rw [hchars]
        cases s with
        | nil => simp [List.isPrefixOf]
        | cons d s =>
          simp only [List.isPrefixOf, Bool.and_true, Bool.and_eq_true, beq_iff_eq, List.head?_cons,
            Option.some_inj]
          exact and_congr eq_comm eq_comm
      by_cases hstop : c = '<' ∧ s.head? = some '/'
      · rw [if_pos (hclose.mpr hstop), if_pos hstop]
        exact ⟨pos, rfl, h⟩
      rw [if_neg (mt hclose.mp hstop), if_neg hstop]
      obtain ⟨steps, rfl⟩ : ∃ n, steps = n + 2 := ⟨steps - 2, by omega⟩
      have hnode := readNodeAt_tracks parseExpr steps h (by omega)
        fun h' hlen => ih steps (by omega) h' (by omega)
      cases hfirst : values (readNode parseExpr c s) with
      | error e =>
        rw [hfirst] at hnode
        have hat : readNodeAt src parseExpr (steps + 2) pos = .error (.error e) := hnode
        rw [hat]
        rfl
      | ok read =>
        obtain ⟨node, rest₁⟩ := read
        rw [hfirst] at hnode
        obtain ⟨pos₁, hat, hpos₁⟩ := hnode
        have hlen := (values_eq_ok hfirst).length_le
        have hnodes := ih (steps + 2) (by omega) hpos₁ (by omega)
        rw [hat]
        simp only
        cases hsecond : values (parseNodes parseExpr rest₁) with
        | error e =>
          rw [hsecond] at hnodes
          have hat' : parseNodesAt src parseExpr (steps + 2) pos₁ = .error (.error e) := hnodes
          rw [hat']
          rfl
        | ok read =>
          obtain ⟨nodes, rest₂⟩ := read
          rw [hsecond] at hnodes
          obtain ⟨pos₂, hat', hpos₂⟩ := hnodes
          rw [hat']
          exact ⟨pos₂, rfl, hpos₂⟩

/-- `add` comes to an end on every source, and no index in it panics. -/
theorem addAt_eq (engine : Kernleaf F) (name source : Text) {steps : Nat}
    (hsteps : 3 * source.length + 2 < steps) :
    addAt parseExpr steps engine name source = ofTemplate (add parseExpr engine name source) := by
  have htracks := parseNodesAt_tracks parseExpr (standsAt_start source) hsteps
  unfold addAt add
  cases hparse : parseNodes parseExpr source with
  | error e =>
    rw [hparse] at htracks
    have hat : parseNodesAt source parseExpr steps 0 = .error (.error e) := htracks
    rw [hat]
    rfl
  | ok r =>
    rw [hparse] at htracks
    obtain ⟨pos, hat, -⟩ := htracks
    rw [hat]
    rfl

end Nodes

section Whole

variable {F : Type}

theorem ofTemplate_injective {α : Type} {res res' : Except TemplateError α}
    (h : ofTemplate res = ofTemplate res') : res = res' := by
  cases res with
  | error e =>
    cases res' with
    | error e' =>
      cases h
      rfl
    | ok a => cases h
  | ok a =>
    cases res' with
    | error e' => cases h
    | ok a' =>
      cases h
      rfl

theorem behindStray_subset {depth : Nat} {l : List Lexeme} : behindStray depth l ⊆ l := by
  induction l generalizing depth with
  | nil =>
    cases depth <;> exact List.Subset.refl _
  | cons x l ih =>
    unfold behindStray
    split
    next => exact List.nil_subset _
    next heq =>
      cases heq
      exact List.subset_cons_self _ _
    next heq =>
      cases heq
      exact List.subset_cons_of_subset _ ih
    next heq =>
      cases heq
      exact List.subset_cons_of_subset _ ih
    next heq =>
      cases heq
      exact List.subset_cons_of_subset _ ih

variable [StdLib F] (parseExpr : Text → Except TemplateError (Expr F)) (engine : Kernleaf F)
  (name source : Text)

/-- `add` comes to an end on the source without a panic. Where it takes a source that has no
directives and no inline expressions, the template is rendered with every piece of the source. -/
def NothingLost : Prop :=
  ∃ res : Except TemplateError (Kernleaf F),
    (∃ enough, ∀ steps, enough ≤ steps →
      addAt parseExpr steps engine name source = ofTemplate res) ∧
    ((∀ x ∈ scan source, x.plain = true) → ∀ engine', res = .ok engine' → ∀ model ctx, ∃ out,
      engine'.renderChunks name model ctx = .ok out ∧ Emits (scan source) out)

omit [StdLib F] in
theorem add_of_enough {res : Except TemplateError (Kernleaf F)}
    (h : ∃ enough, ∀ steps, enough ≤ steps →
      addAt parseExpr steps engine name source = ofTemplate res) :
    res = add parseExpr engine name source := by
  obtain ⟨enough, h⟩ := h
  have hrun := h (enough + (3 * source.length + 3)) (by omega)
  rw [addAt_eq parseExpr engine name source (by omega)] at hrun
  exact (ofTemplate_injective hrun).symm

end Whole

end Kernway.Kernleaf
