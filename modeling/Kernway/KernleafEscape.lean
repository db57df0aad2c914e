import Kernway.KernleafExpr

namespace Kernway.Kernleaf

inductive InlineMode
  | html
  | javaScript
  | css
  deriving DecidableEq

def escapeHtmlChar : Char → Text
  | '&' => "&amp;".toList
  | '<' => "&lt;".toList
  | '>' => "&gt;".toList
  | '"' => "&quot;".toList
  | '\'' => "&#x27;".toList
  | c => [c]

def escapeJsChar : Char → Text
  | '\\' => ['\\', '\\']
  | '\'' => ['\\', '\'']
  | '"' => ['\\', '"']
  | '\n' => ['\\', 'n']
  | '\r' => ['\\', 'r']
  | '\t' => ['\\', 't']
  | '<' => '\\' :: "u003C".toList
  | '>' => '\\' :: "u003E".toList
  | '&' => '\\' :: "u0026".toList
  | '/' => ['\\', '/']
  | c => [c]

def escapeCssChar (c : Char) : Text :=
  if c.isAlphanum then [c] else '\\' :: (hexUpper c.toNat ++ [' '])

def escapeHtml (s : Text) : Text := s.flatMap escapeHtmlChar

def escapeJs (s : Text) : Text := s.flatMap escapeJsChar

def escapeCss (s : Text) : Text := s.flatMap escapeCssChar

def escapeFor : InlineMode → Text → Text
  | .html => escapeHtml
  | .javaScript => escapeJs
  | .css => escapeCss

def IsBracket (c : Char) : Prop := c = '<' ∨ c = '>'

instance (c : Char) : Decidable (IsBracket c) := inferInstanceAs (Decidable (_ ∨ _))

def IsQuote (c : Char) : Prop := c = '"' ∨ c = '\''

instance (c : Char) : Decidable (IsQuote c) := inferInstanceAs (Decidable (_ ∨ _))

theorem not_bracket_of_isAlphanum {c : Char} (h : c.isAlphanum) : ¬ IsBracket c ∧ ¬ IsQuote c := by
  constructor <;> rintro (rfl | rfl) <;> revert h <;> decide

theorem hexUpper_isAlphanum {n : Nat} {c : Char} (h : c ∈ hexUpper n) : c.isAlphanum := by
  have hdigit : ∀ d < 16, (Nat.digitChar d).toUpper.isAlphanum := by decide
  induction n using Nat.strongRecOn with
  | _ n ih =>
    rw [hexUpper, Nat.toDigits_eq_if (by omega)] at h
    split at h
    next hn =>
      obtain rfl := List.mem_singleton.mp h
      exact hdigit n hn
    next hn =>
      rw [List.map_append, List.mem_append] at h
      rcases h with h | h
      · exact ih (n / 16) (by omega) h
      · obtain rfl := List.mem_singleton.mp h
        exact hdigit (n % 16) (by omega)

theorem escapeHtmlChar_plain {c x : Char} (h : x ∈ escapeHtmlChar c) :
    ¬ IsBracket x ∧ ¬ IsQuote x := by
  have hfix : ∀ s ∈ ["&amp;", "&lt;", "&gt;", "&quot;", "&#x27;"],
      s.toList.all (fun x => ¬ IsBracket x ∧ ¬ IsQuote x) = true := by decide
  unfold escapeHtmlChar at h
  split at h
  case h_6 hamp hlt hgt hquot hapos =>
    obtain rfl := List.mem_singleton.mp h
    exact ⟨not_or.mpr ⟨hlt, hgt⟩, not_or.mpr ⟨hquot, hapos⟩⟩
  all_goals exact of_decide_eq_true (List.all_eq_true.mp (hfix _ (by simp)) x h)

theorem escapeJsChar_plain {c x : Char} (h : x ∈ escapeJsChar c) : ¬ IsBracket x := by
  have hfix : ∀ s ∈ [['\\', '\\'], ['\\', '\''], ['\\', '"'], ['\\', 'n'], ['\\', 'r'], ['\\', 't'],
      '\\' :: "u003C".toList, '\\' :: "u003E".toList, '\\' :: "u0026".toList, ['\\', '/']],
      s.all (fun x => ¬ IsBracket x) = true := by decide
  unfold escapeJsChar at h
  split at h
  case h_11 hlt hgt _ _ =>
    obtain rfl := List.mem_singleton.mp h
    exact not_or.mpr ⟨hlt, hgt⟩
  all_goals exact of_decide_eq_true (List.all_eq_true.mp (hfix _ (by simp)) x h)

theorem escapeCssChar_plain {c x : Char} (h : x ∈ escapeCssChar c) :
    ¬ IsBracket x ∧ ¬ IsQuote x := by
  unfold escapeCssChar at h
  split at h
  next hc =>
    obtain rfl := List.mem_singleton.mp h
    exact not_bracket_of_isAlphanum hc
  next =>
    rcases List.mem_cons.mp h with rfl | h
    · decide
    · rcases List.mem_append.mp h with h | h
      · exact not_bracket_of_isAlphanum (hexUpper_isAlphanum h)
      · obtain rfl := List.mem_singleton.mp h
        decide

/-- An escaped text has no bracket, and no quote but in JavaScript. -/
theorem escapeFor_plain {mode : InlineMode} {s : Text} {x : Char} (h : x ∈ escapeFor mode s) :
    ¬ IsBracket x ∧ (mode ≠ .javaScript → ¬ IsQuote x) := by
  cases mode with
  | html =>
    obtain ⟨c, -, hx⟩ := List.mem_flatMap.mp h
    exact (escapeHtmlChar_plain hx).imp_right fun hq _ => hq
  | javaScript =>
    obtain ⟨c, -, hx⟩ := List.mem_flatMap.mp h
    exact ⟨escapeJsChar_plain hx, fun hne => absurd rfl hne⟩
  | css =>
    obtain ⟨c, -, hx⟩ := List.mem_flatMap.mp h
    exact (escapeCssChar_plain hx).imp_right fun hq _ => hq

end Kernway.Kernleaf
