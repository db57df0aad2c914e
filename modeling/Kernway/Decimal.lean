import Kernway.Str

namespace Kernway

theorem isDigit_of_mem_toDigits {n : Nat} {c : Char} (h : c ∈ Nat.toDigits 10 n) :
    c.isDigit = true :=
  Nat.isDigit_of_mem_toDigits (by decide) (by decide) h

theorem notMem_toDigits {c : Char} (hc : c.isDigit = false) (n : Nat) :
    c ∉ Nat.toDigits 10 n := by
  intro h
  have hdigit := isDigit_of_mem_toDigits h
  rw [hc] at hdigit
  cases hdigit

/-- A number in decimal is no text that begins with a sign. -/
theorem toDigits_ne_cons {c : Char} (hc : c.isDigit = false) (n : Nat) (rest : Text) :
    Nat.toDigits 10 n ≠ c :: rest := by
  intro h
  apply notMem_toDigits hc n
  rw [h]
  exact List.mem_cons_self ..

theorem all_toDigits (n : Nat) : (Nat.toDigits 10 n).all isAsciiDigit = true := by
  refine List.all_eq_true.mpr fun c hc => ?_
  exact isDigit_of_mem_toDigits hc

theorem digitsValue_toDigits (n : Nat) : digitsValue (Nat.toDigits 10 n) = n :=
  Nat.ofDigitChars_ten_toDigits

theorem parseUsize_toDigits {n : Nat} (h : n < 2 ^ 64) :
    parseUsize (Nat.toDigits 10 n) = some n := by
  have hplain : Nat.toDigits 10 n ≠ [] ∧ (Nat.toDigits 10 n).all isAsciiDigit = true ∧
      digitsValue (Nat.toDigits 10 n) < 2 ^ 64 :=
    ⟨Nat.toDigits_ne_nil, all_toDigits n, by rwa [digitsValue_toDigits]⟩
  unfold parseUsize
  dsimp only
  split
  next rest heq => exact absurd heq (toDigits_ne_cons (by decide) n rest)
  next => rw [if_pos hplain, digitsValue_toDigits]

theorem parseUsize_eq (s : Text) : ∃ digits : Text, (s = digits ∨ s = '+' :: digits) ∧
    parseUsize s =
      if digits ≠ [] ∧ digits.all isAsciiDigit = true ∧ digitsValue digits < 2 ^ 64 then
        some (digitsValue digits) else none := by
  unfold parseUsize
  dsimp only
  split
  next rest => exact ⟨rest, .inr rfl, rfl⟩
  next => exact ⟨s, .inl rfl, rfl⟩

theorem digits_of_parseUsize {s : Text} {n : Nat} (h : parseUsize s = some n) :
    ∃ digits, (s = digits ∨ s = '+' :: digits) ∧ digits.all isAsciiDigit = true := by
  obtain ⟨digits, hs, heq⟩ := parseUsize_eq s
  refine ⟨digits, hs, ?_⟩
  rw [heq] at h
  by_contra hall
  rw [if_neg fun hdigits => hall hdigits.2.1] at h
  cases h

theorem notMem_of_parseUsize {s : Text} {n : Nat} (h : parseUsize s = some n) {c : Char}
    (hc : isAsciiDigit c = false) (hplus : c ≠ '+') : c ∉ s := by
  obtain ⟨digits, hs, hall⟩ := digits_of_parseUsize h
  intro hmem
  have hdigit : c ∈ digits := by
    rcases hs with rfl | rfl
    · exact hmem
    · exact (List.mem_cons.mp hmem).resolve_left hplus
  rw [List.all_eq_true.mp hall c hdigit] at hc
  cases hc

/-- `parse::<u32>`. -/
def parseU32 (s : Text) : Option UInt32 :=
  ((parseUsize s).filter fun n => n < 2 ^ 32).map UInt32.ofNat

theorem parseU32_toDigits (n : UInt32) : parseU32 (Nat.toDigits 10 n.toNat) = some n := by
  have hlt := n.toNat_lt
  rw [parseU32, parseUsize_toDigits (by omega), Option.filter_some, if_pos (by simpa using hlt),
    Option.map_some, UInt32.ofNat_toNat]

theorem ascii_of_parseU32 {s : Text} {n : UInt32} (h : parseU32 s = some n) :
    ∀ c ∈ s, c.toNat ≤ 127 := by
  obtain ⟨m, hm, _⟩ := Option.map_eq_some_iff.mp h
  have hparse := (Option.filter_eq_some_iff.mp hm).1
  intro c hc
  by_contra hhigh
  have hplus : c ≠ '+' := by
    rintro rfl
    exact hhigh (by decide)
  have hdigit : isAsciiDigit c = false := by
    rw [isAsciiDigit, Bool.and_eq_false_iff]
    apply Or.inr
    apply decide_eq_false
    intro hle
    have hle' : c.toNat ≤ 57 := hle
    omega
  exact notMem_of_parseUsize hparse hdigit hplus hc

end Kernway
