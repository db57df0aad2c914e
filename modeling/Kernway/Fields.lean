import Kernway.Str
import Mathlib.Data.List.Forall2

namespace Kernway

def asciiLowerByte (b : UInt8) : UInt8 := if 65 ≤ b ∧ b ≤ 90 then b + 32 else b

structure Span where
  start : Nat
  stop : Nat
  deriving DecidableEq

/-- A pair as ranges into `Fields.buf`. -/
structure Entry where
  name : Span
  value : Span
  deriving DecidableEq

structure Fields (caseInsensitive : Bool) where
  buf : Bytes := []
  entries : List Entry := []
  deriving DecidableEq

abbrev Headers := Fields true

abbrev QueryParams := Fields false

namespace Fields

variable {ci : Bool}

/-- `offset`: the position as a `u32`, `none` where the source panics. -/
def offset (len : Nat) : Option Nat := if len < 2 ^ 32 then some len else none

/-- How a name is stored: lower-cased when names ignore case. -/
def storedName (ci : Bool) (name : Bytes) : Bytes := if ci then name.map asciiLowerByte else name

def push (f : Fields ci) (name value : Text) : Option (Fields ci) := do
  let nameStart ← offset f.buf.length
  let named := f.buf ++ storedName ci (encodeUtf8 name)
  let nameEnd ← offset named.length
  let valued := named ++ encodeUtf8 value
  let valueEnd ← offset valued.length
  return ⟨valued, f.entries ++ [⟨⟨nameStart, nameEnd⟩, ⟨nameEnd, valueEnd⟩⟩]⟩

def append (f : Fields ci) (name value : Text) : Option (Fields ci) := f.push name value

def bytesAt (buf : Bytes) (r : Span) : Bytes := (buf.take r.stop).drop r.start

def slice (f : Fields ci) (r : Span) : Text := (decodeUtf8 (bytesAt f.buf r)).getD []

def nameMatches (ci : Bool) (buf : Bytes) (e : Entry) (name : Text) : Bool :=
  storedName ci (bytesAt buf e.name) == storedName ci (encodeUtf8 name)

def insert (f : Fields ci) (name value : Text) : Option (Fields ci) :=
  push { f with entries := f.entries.filter fun e => !nameMatches ci f.buf e name } name value

def get (f : Fields ci) (name : Text) : Option Text :=
  (f.entries.reverse.find? fun e => nameMatches ci f.buf e name).map fun e => f.slice e.value

def iter (f : Fields ci) : List (Text × Text) :=
  f.entries.map fun e => (f.slice e.name, f.slice e.value)

end Fields

theorem asciiLowerByte_high {b : UInt8} (h : 127 < b.toNat) : asciiLowerByte b = b := by
  have hb : ¬ b ≤ 90 := by
    rw [UInt8.le_iff_toNat_le, show (90 : UInt8).toNat = 90 from rfl]
    omega
  simp [asciiLowerByte, hb]

theorem utf8EncodeChar_toLower (c : Char) :
    String.utf8EncodeChar c.toLower = (String.utf8EncodeChar c).map asciiLowerByte := by
  by_cases hc : c.toNat ≤ 127
  · have h : ∀ n ≤ 127, String.utf8EncodeChar (Char.ofNat n).toLower =
        (String.utf8EncodeChar (Char.ofNat n)).map asciiLowerByte := by decide +kernel
    simpa using h c.toNat hc
  · rw [toLower_high (by omega)]
    have h : (String.utf8EncodeChar c).map asciiLowerByte = (String.utf8EncodeChar c).map id :=
      List.map_congr_left fun b hb => asciiLowerByte_high (utf8EncodeChar_high (by omega) hb)
    rw [h, List.map_id]

theorem encodeUtf8_toAsciiLowercase (s : Text) :
    encodeUtf8 (toAsciiLowercase s) = (encodeUtf8 s).map asciiLowerByte := by
  induction s with
  | nil => rfl
  | cons c s ih =>
    simp only [toAsciiLowercase, List.map_cons, encodeUtf8_cons, List.map_append] at ih ⊢
    rw [utf8EncodeChar_toLower, ih]

def storedText (ci : Bool) (name : Text) : Text := if ci then toAsciiLowercase name else name

theorem toLower_toLower (c : Char) : c.toLower.toLower = c.toLower := by
  by_cases hc : c.toNat ≤ 127
  · have h : ∀ n ≤ 127, (Char.ofNat n).toLower.toLower = (Char.ofNat n).toLower := by decide +kernel
    simpa using h c.toNat hc
  · have hsame : c.toLower = c := toLower_high (by omega)
    rw [hsame, hsame]

theorem storedText_storedText (ci : Bool) (name : Text) :
    storedText ci (storedText ci name) = storedText ci name := by
  cases ci with
  | false => rfl
  | true =>
    show (name.map Char.toLower).map Char.toLower = name.map Char.toLower
    rw [List.map_map]
    exact List.map_congr_left fun c _ => toLower_toLower c

namespace Fields

variable {ci : Bool}

theorem storedName_encodeUtf8 (ci : Bool) (name : Text) :
    storedName ci (encodeUtf8 name) = encodeUtf8 (storedText ci name) := by
  cases ci
  · rfl
  · exact (encodeUtf8_toAsciiLowercase name).symm

/-- An entry whose ranges lie in the buffer and spell the pair `p`. -/
structure EntryHolds (buf : Bytes) (e : Entry) (p : Text × Text) : Prop where
  name_le : e.name.stop ≤ buf.length
  value_le : e.value.stop ≤ buf.length
  name_eq : bytesAt buf e.name = encodeUtf8 p.1
  value_eq : bytesAt buf e.value = encodeUtf8 p.2

/-- The buffer and ranges represent the association list `ps`. -/
def Holds (f : Fields ci) (ps : List (Text × Text)) : Prop :=
  List.Forall₂ (EntryHolds f.buf) f.entries ps

theorem bytesAt_append {buf : Bytes} {r : Span} (h : r.stop ≤ buf.length) (ext : Bytes) :
    bytesAt (buf ++ ext) r = bytesAt buf r := by
  rw [bytesAt, bytesAt, List.take_append_of_le_length h]

theorem EntryHolds.append {buf : Bytes} {e : Entry} {p : Text × Text} (h : EntryHolds buf e p)
    (ext : Bytes) : EntryHolds (buf ++ ext) e p where
  name_le := by have := h.name_le; simp only [List.length_append]; omega
  value_le := by have := h.value_le; simp only [List.length_append]; omega
  name_eq := by rw [bytesAt_append h.name_le, h.name_eq]
  value_eq := by rw [bytesAt_append h.value_le, h.value_eq]

theorem bytesAt_middle (a b c : Bytes) : bytesAt (a ++ b ++ c) ⟨a.length, (a ++ b).length⟩ = b := by
  simp only [bytesAt, List.take_left, List.drop_left]

theorem offset_eq_some {len n : Nat} (h : offset len = some n) : n = len := by
  unfold offset at h
  split at h <;> simp_all

theorem push_holds {f g : Fields ci} {ps : List (Text × Text)} {name value : Text}
    (hf : f.Holds ps) (h : f.push name value = some g) :
    g.Holds (ps ++ [(storedText ci name, value)]) := by
  simp only [push, Option.bind_eq_bind, Option.bind_eq_some_iff] at h
  obtain ⟨i, hi, j, hj, k, hk, hg⟩ := h
  obtain rfl := offset_eq_some hi
  obtain rfl := offset_eq_some hj
  obtain rfl := offset_eq_some hk
  cases Option.some.inj hg
  refine List.rel_append ?_ ?_
  · refine hf.imp fun e p he => ?_
    simpa only [List.append_assoc] using he.append _
  · refine .cons ⟨by simp, by simp, ?_, ?_⟩ .nil
    · rw [← storedName_encodeUtf8]
      exact bytesAt_middle ..
    · simpa using bytesAt_middle (f.buf ++ storedName ci (encodeUtf8 name)) (encodeUtf8 value) []

theorem EntryHolds.slice_name {f : Fields ci} {e : Entry} {p : Text × Text}
    (h : EntryHolds f.buf e p) : f.slice e.name = p.1 := by
  simp [slice, h.name_eq]

theorem EntryHolds.slice_value {f : Fields ci} {e : Entry} {p : Text × Text}
    (h : EntryHolds f.buf e p) : f.slice e.value = p.2 := by
  simp [slice, h.value_eq]

theorem EntryHolds.nameMatches {buf : Bytes} {e : Entry} {p : Text × Text}
    (h : EntryHolds buf e p) (name : Text) :
    nameMatches ci buf e name = (storedText ci p.1 == storedText ci name) := by
  simp only [Fields.nameMatches, h.name_eq, storedName_encodeUtf8]
  by_cases heq : storedText ci p.1 = storedText ci name
  · simp [heq]
  · simpa [heq] using fun h => heq (encodeUtf8_injective h)

theorem iter_of_holds {f : Fields ci} {ps : List (Text × Text)} (h : f.Holds ps) :
    f.iter = ps := by
  unfold iter
  unfold Holds at h
  generalize f.entries = es at h
  induction h with
  | nil => rfl
  | cons he _ ih => simp only [List.map_cons, ih, he.slice_name, he.slice_value]

/-- `get` returns the value of the last pair of that name. -/
theorem get_of_holds {f : Fields ci} {ps : List (Text × Text)} (h : f.Holds ps) (name : Text) :
    f.get name =
      (ps.reverse.find? fun p => storedText ci p.1 == storedText ci name).map Prod.snd := by
  have hr : List.Forall₂ (EntryHolds f.buf) f.entries.reverse ps.reverse :=
    List.rel_reverse h
  unfold get
  generalize f.entries.reverse = es at hr ⊢
  generalize ps.reverse = qs at hr ⊢
  induction hr with
  | nil => rfl
  | cons he _ ih =>
    simp only [List.find?_cons, he.nameMatches]
    split
    · simp [he.slice_value]
    · exact ih

theorem holds_nil : (({} : Fields ci)).Holds [] := .nil

end Fields

end Kernway
