import Kernway.KernleafAttrs
import Kernway.StringLiterals
import Mathlib

namespace Kernway.Kernleaf

section JavaScript

def lineSeparator : Char := Char.ofNat 0x2028

def paragraphSeparator : Char := Char.ofNat 0x2029

/-- The text has none of the two line terminators outside ASCII. -/
def NoSeparator (s : Text) : Prop := lineSeparator ∉ s ∧ paragraphSeparator ∉ s

instance (s : Text) : Decidable (NoSeparator s) := inferInstanceAs (Decidable (_ ∧ _))

theorem literal_escapeJsChar {c : Char} (h : c ≠ lineSeparator) (h' : c ≠ paragraphSeparator)
    (rest : Text) :
    Js.literal (escapeJsChar c ++ rest) = (Js.literal rest).map (Js.units c ++ ·) := by
  unfold escapeJsChar
  split
  case h_11 hbackslash happ hquot hlf hcr htab hlt hgt hamp hslash =>
    refine Js.literal_plain hbackslash ?_ rest
    rintro (heq | heq | heq | heq | heq | heq)
    · exact happ heq
    · exact hquot heq
    · exact hlf heq
    · exact hcr heq
    · exact h heq
    · exact h' heq
  all_goals exact Js.literal_escape rfl

/-- A text without them is the value of its escape, whatever follows. -/
theorem literal_escapeJs {s : Text} (h : NoSeparator s) (rest : Text) :
    Js.literal (escapeJs s ++ rest) = (Js.literal rest).map (Js.utf16 s ++ ·) := by
  induction s with
  | nil =>
    show Js.literal rest = (Js.literal rest).map fun u => u
    rw [Option.map_id']
  | cons c s ih =>
    obtain ⟨hline, hparagraph⟩ := h
    have hrest := ih ⟨fun hin => hline (List.mem_cons_of_mem c hin),
      fun hin => hparagraph (List.mem_cons_of_mem c hin)⟩
    have hc : c ≠ lineSeparator := fun heq => hline (heq ▸ List.mem_cons_self)
    have hc' : c ≠ paragraphSeparator := fun heq => hparagraph (heq ▸ List.mem_cons_self)
    have hsplit : escapeJs (c :: s) ++ rest = escapeJsChar c ++ (escapeJs s ++ rest) := by
      rw [escapeJs, List.flatMap_cons, List.append_assoc]
      rfl
    rw [hsplit, literal_escapeJsChar hc hc', hrest, Option.map_map]
    congr 1
    funext u
    show Js.units c ++ (Js.utf16 s ++ u) = Js.utf16 (c :: s) ++ u
    rw [Js.utf16, Js.utf16, List.flatMap_cons, List.append_assoc]

theorem escapeJsChar_amp {c x : Char} (h : x ∈ escapeJsChar c) : x ≠ '&' := by
  have hfix : ∀ s ∈ [['\\', '\\'], ['\\', '\''], ['\\', '"'], ['\\', 'n'], ['\\', 'r'], ['\\', 't'],
      '\\' :: "u003C".toList, '\\' :: "u003E".toList, '\\' :: "u0026".toList, ['\\', '/']],
      s.all (fun x => x ≠ '&') = true := by decide
  unfold escapeJsChar at h
  split at h
  case h_11 hamp _ =>
    obtain rfl := List.mem_singleton.mp h
    exact hamp
  all_goals exact of_decide_eq_true (List.all_eq_true.mp (hfix _ (by simp)) x h)

theorem slash_escapeJsChar {c : Char} {before after : Text}
    (h : escapeJsChar c = before ++ '/' :: after) : before = ['\\'] := by
  have hin : ∀ l, l = before ++ '/' :: after → '/' ∈ l := by
    rintro l rfl
    exact List.mem_append_right _ List.mem_cons_self
  have hfix : ∀ s ∈ [['\\', '\\'], ['\\', '\''], ['\\', '"'], ['\\', 'n'], ['\\', 'r'], ['\\', 't'],
      '\\' :: "u003C".toList, '\\' :: "u003E".toList, '\\' :: "u0026".toList], '/' ∉ s := by decide
  unfold escapeJsChar at h
  split at h
  case h_10 =>
    rcases before with _ | ⟨x, _ | ⟨y, before⟩⟩
    · cases (List.cons.inj h).1
    · rw [← (List.cons.inj h).1]
    · have hlength := congrArg List.length h
      simp at hlength
  case h_11 hslash => exact absurd (List.mem_singleton.mp (hin _ h)).symm hslash
  all_goals exact absurd (hin _ h) (hfix _ (by simp))

/-- A slash stands behind the backslash that was written for it. -/
theorem slash_escapeJs {s before after : Text} (h : escapeJs s = before ++ '/' :: after) :
    before.getLast? = some '\\' := by
  induction s generalizing before with
  | nil =>
    have hlength := congrArg List.length h
    simp [escapeJs] at hlength
  | cons c s ih =>
    rw [escapeJs, List.flatMap_cons] at h
    rcases List.append_eq_append_iff.mp h with ⟨m, rfl, hrest⟩ | ⟨m, hchar, hrest⟩
    · have hlast := ih hrest
      rw [List.getLast?_append, hlast]
      rfl
    · cases m with
      | nil =>
        have hfront : escapeJs s = [] ++ '/' :: after := hrest.symm
        cases ih hfront
      | cons x m =>
        obtain ⟨rfl, -⟩ := List.cons.inj hrest
        rw [slash_escapeJsChar hchar]
        rfl

end JavaScript

section Css

theorem hexUpper_eq (n : Nat) : hexUpper n =
    (if n < 16 then [] else hexUpper (n / 16)) ++ [(Nat.digitChar (n % 16)).toUpper] := by
  conv_lhs => rw [hexUpper, Nat.toDigits_eq_if (by decide)]
  split
  next hn =>
    rw [Nat.mod_eq_of_lt hn]
    rfl
  next =>
    rw [List.map_append]
    rfl

theorem hexDigit_digitChar : ∀ d : Fin 16,
    Html.isHexDigit (Nat.digitChar d).toUpper = true ∧ Html.hexDigit (Nat.digitChar d).toUpper = d := by
  decide

theorem isHexDigit_hexUpper (n : Nat) : ∀ c ∈ hexUpper n, Html.isHexDigit c = true := by
  induction n using Nat.strongRecOn with
  | _ n ih =>
    intro c hc
    rw [hexUpper_eq, List.mem_append] at hc
    rcases hc with hc | hc
    · split at hc
      next => cases hc
      next hn => exact ih (n / 16) (by omega) c hc
    · rw [List.mem_singleton.mp hc]
      exact (hexDigit_digitChar ⟨n % 16, Nat.mod_lt _ (by decide)⟩).1

theorem hexValue_hexUpper (n : Nat) : Html.hexValue (hexUpper n) = n := by
  induction n using Nat.strongRecOn with
  | _ n ih =>
    have hdigit := (hexDigit_digitChar ⟨n % 16, Nat.mod_lt _ (by decide)⟩).2
    dsimp only at hdigit
    rw [hexUpper_eq]
    unfold Html.hexValue at ih ⊢
    rw [List.foldl_append, List.foldl_cons, List.foldl_nil, hdigit]
    split
    next hn =>
      rw [List.foldl_nil]
      omega
    next hn =>
      rw [ih (n / 16) (by omega)]
      omega

theorem toNat_valid (c : Char) : c.toNat < 0xD800 ∨ 0xDFFF < c.toNat ∧ c.toNat < 0x110000 := c.valid

theorem length_hexUpper (c : Char) : (hexUpper c.toNat).length ≤ 6 := by
  have hvalid : c.toNat < 16 ^ 6 := by
    have h := toNat_valid c
    omega
  rw [hexUpper, List.length_map]
  exact (Nat.length_toDigits_le_iff (by decide) (by decide)).mpr hvalid

theorem toNat_of_isAlphanum {c : Char} (h : c.isAlphanum = true) : 48 ≤ c.toNat := by
  simp only [Char.isAlphanum, Char.isAlpha, Char.isUpper, Char.isLower, Char.isDigit,
    Bool.or_eq_true, Bool.and_eq_true, decide_eq_true_iff, ge_iff_le, UInt32.le_iff_toNat_le] at h
  have hdigit : '0'.val.toNat = 48 := rfl
  have hupper : 'A'.val.toNat = 65 := rfl
  have hlower : 'a'.val.toNat = 97 := rfl
  have hval : c.val.toNat = c.toNat := rfl
  omega

/-- What a CSS string has for a character: there is no escape of the number 0. -/
def cssChar (c : Char) : Char := if c.toNat = 0 then '\uFFFD' else c

theorem codePoint_eq (c : Char) : Css.codePoint c.toNat = cssChar c := by
  have hvalid := toNat_valid c
  unfold Css.codePoint cssChar
  by_cases hzero : c.toNat = 0
  · rw [if_pos (.inl hzero), if_pos hzero]
  · rw [if_neg (by omega), if_neg hzero, Char.ofNat_toNat]

theorem string_escapeCssChar (c : Char) (rest : Text) :
    Css.string (escapeCssChar c ++ rest) = (Css.string rest).map ([cssChar c] ++ ·) := by
  unfold escapeCssChar
  split
  next halnum =>
    have hquote := (not_bracket_of_isAlphanum halnum).2
    have hge := toNat_of_isAlphanum halnum
    have hplain : c ≠ '\\' ∧ Css.isNewline c = false ∧ c.toNat ≠ 0 := by
      refine ⟨?_, ?_, by omega⟩
      · rintro rfl
        revert halnum
        decide
      · have hlf : c ≠ '\n' := by
          rintro rfl
          exact absurd hge (by decide)
        have hcr : c ≠ '\r' := by
          rintro rfl
          exact absurd hge (by decide)
        have hff : c.toNat ≠ 12 := by omega
        simp [Css.isNewline, hlf, hcr, hff]
    have hsame : cssChar c = c := if_neg hplain.2.2
    rw [List.singleton_append, hsame, Css.string_plain hplain.1 ?_ hplain.2.2]
    rintro (heq | heq | heq)
    · exact hquote (.inr heq)
    · exact hquote (.inl heq)
    · rw [hplain.2.1] at heq
      cases heq
  next =>
    have hne : hexUpper c.toNat ≠ [] := by
      rw [hexUpper_eq]
      simp
    have hsplit : '\\' :: (hexUpper c.toNat ++ [' ']) ++ rest =
        '\\' :: (hexUpper c.toNat ++ ' ' :: rest) := by simp
    rw [hsplit, Css.string_escape, Css.escape_digits (isHexDigit_hexUpper _) hne (length_hexUpper c),
      hexValue_hexUpper, codePoint_eq]

/-- A text is what its escape means in a CSS string, whatever follows, but for the number 0. -/
theorem string_escapeCss (s rest : Text) :
    Css.string (escapeCss s ++ rest) = (Css.string rest).map (s.map cssChar ++ ·) := by
  induction s with
  | nil =>
    show Css.string rest = (Css.string rest).map fun t => t
    rw [Option.map_id']
  | cons c s ih =>
    have hsplit : escapeCss (c :: s) ++ rest = escapeCssChar c ++ (escapeCss s ++ rest) := by
      rw [escapeCss, List.flatMap_cons, List.append_assoc]
      rfl
    rw [hsplit, string_escapeCssChar, ih, Option.map_map]
    rfl

/-- The escape of a text has letters, digits, backslashes and blanks only. -/
theorem mem_escapeCss {s : Text} {x : Char} (h : x ∈ escapeCss s) :
    x.isAlphanum = true ∨ x = '\\' ∨ x = ' ' := by
  obtain ⟨c, -, hx⟩ := List.mem_flatMap.mp h
  unfold escapeCssChar at hx
  split at hx
  next halnum =>
    rw [List.mem_singleton.mp hx]
    exact .inl halnum
  next =>
    rcases List.mem_cons.mp hx with rfl | hx
    · exact .inr (.inl rfl)
    · rcases List.mem_append.mp hx with hx | hx
      · exact .inl (hexUpper_isAlphanum hx)
      · exact .inr (.inr (List.mem_singleton.mp hx))

theorem map_cssChar_of {s : Text} (h : Char.ofNat 0 ∉ s) : s.map cssChar = s := by
  refine (List.map_congr_left fun c hc => ?_).trans (List.map_id s)
  refine if_neg fun hzero => h ?_
  have heq : c = Char.ofNat 0 := by rw [← hzero, Char.ofNat_toNat]
  rwa [← heq]

end Css

section Contexts

variable (refs : Html.References) (s : Text)

/-- What is written into HTML is read back, and has no bracket and no quote. -/
structure HtmlSafe : Prop where
  decoded : ∀ rest, Html.decode refs (escapeHtml s ++ rest) = s ++ Html.decode refs rest
  plain : ∀ c ∈ escapeHtml s, ¬ IsBracket c ∧ ¬ IsQuote c

/-- What is written into a JavaScript string is read back, with no quote and no line terminator as
it is, and has no bracket and no ampersand, and no slash but behind a backslash. -/
structure JsSafe : Prop where
  decoded : ∀ rest, Js.literal (escapeJs s ++ rest) = (Js.literal rest).map (Js.utf16 s ++ ·)
  plain : ∀ c ∈ escapeJs s, ¬ IsBracket c ∧ c ≠ '&'
  slash : ∀ before after, escapeJs s = before ++ '/' :: after → before.getLast? = some '\\'

/-- What is written into a CSS string is read back, with the replacement character for the number 0,
and has letters, digits, backslashes and blanks only. -/
structure CssSafe : Prop where
  decoded : ∀ rest, Css.string (escapeCss s ++ rest) = (Css.string rest).map (s.map cssChar ++ ·)
  plain : ∀ c ∈ escapeCss s, c.isAlphanum = true ∨ c = '\\' ∨ c = ' '

theorem htmlSafe : HtmlSafe refs s where
  decoded := decode_escapeHtml_append s
  plain := by
    intro c hc
    obtain ⟨d, -, hx⟩ := List.mem_flatMap.mp hc
    exact escapeHtmlChar_plain hx

theorem cssSafe : CssSafe s where
  decoded := string_escapeCss s
  plain := fun _ => mem_escapeCss

variable {s}

theorem jsSafe (h : NoSeparator s) : JsSafe s where
  decoded := literal_escapeJs h
  plain := by
    intro c hc
    obtain ⟨d, -, hx⟩ := List.mem_flatMap.mp hc
    exact ⟨escapeJsChar_plain hx, escapeJsChar_amp hx⟩
  slash := fun _ _ => slash_escapeJs

end Contexts

/-- The escapers are inverses of the languages' decoding: in JavaScript of texts without the line
terminators outside ASCII, and in CSS but for the number 0, which no escape makes. -/
theorem escapers_inverse (refs : Html.References) (s : Text) :
    HtmlSafe refs s ∧ (NoSeparator s → JsSafe s) ∧ CssSafe s ∧
      (Char.ofNat 0 ∉ s → s.map cssChar = s) :=
  ⟨htmlSafe refs s, jsSafe, cssSafe s, map_cssChar_of⟩

theorem escapers_inverse_script : JsSafe "</script>".toList :=
  (escapers_inverse fourReferences "</script>".toList).2.1 (by decide)

/-- The number 0 is another character where CSS reads it back. -/
theorem escapeCss_zero : Css.string (escapeCss [Char.ofNat 0]) = some ['\uFFFD'] := by
  have h := string_escapeCss [Char.ofNat 0] []
  have hnil : Css.string [] = some [] := by
    unfold Css.string
    rfl
  rw [List.append_nil, hnil] at h
  rw [h]
  rfl

end Kernway.Kernleaf
