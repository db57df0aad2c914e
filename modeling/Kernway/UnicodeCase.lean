import Kernway.Str

namespace Kernway

/-- The upper-case mapping of a Unicode version, which the standard library fixes: ASCII letters
map as in ASCII, and a mapped character is its own upper case. -/
structure UnicodeCase where
  upper : Char → Text
  ascii : ∀ c : Char, c.toNat ≤ 127 → upper c = [c.toUpper]
  fixed : ∀ c, ∀ x ∈ upper c, upper x = [x]

def toUppercase (u : UnicodeCase) (s : Text) : Text := s.flatMap u.upper

theorem toUppercase_ascii (u : UnicodeCase) {s : Text} (h : ∀ c ∈ s, c.toNat ≤ 127) :
    toUppercase u s = toAsciiUppercase s := by
  induction s with
  | nil => rfl
  | cons c s ih =>
    have hs := ih fun x hx => h x (List.mem_cons_of_mem c hx)
    simp only [toUppercase, toAsciiUppercase, List.flatMap_cons, List.map_cons] at hs ⊢
    rw [u.ascii c (h c (by simp)), hs, List.singleton_append]

/-- The mapping of ASCII and of `é`, every other character being its own upper case. -/
def acuteCase : UnicodeCase where
  upper c := if c = 'é' then ['É'] else [c.toUpper]
  ascii c h := if_neg (by rintro rfl; revert h; decide)
  fixed c x hx := by
    have hascii : ∀ n ≤ 127, (Char.ofNat n).toUpper ≠ 'é' ∧
        (Char.ofNat n).toUpper.toUpper = (Char.ofNat n).toUpper := by decide +kernel
    by_cases hc : c = 'é'
    · obtain rfl : x = 'É' := by simpa [hc] using hx
      decide
    · obtain rfl : x = c.toUpper := by simpa [hc] using hx
      by_cases hn : c.toNat ≤ 127
      · have h := hascii c.toNat hn
        rw [Char.ofNat_toNat] at h
        rw [if_neg h.1, h.2]
      · rw [toUpper_high (by omega), if_neg hc, toUpper_high (by omega)]

end Kernway
