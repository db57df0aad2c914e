import Kernway.Results
import Kernway.Str
import Kernway.UnixPath

namespace Kernway

open UnixPath

/-- Why a request path is refused. -/
inductive Rejected
  | traversal
  | dotfile
  | illegalByte
  | badEncoding

def hexVal (b : UInt8) : Option UInt8 :=
  if 48 ≤ b ∧ b ≤ 57 then some (b - 48)
  else if 97 ≤ b ∧ b ≤ 102 then some (b - 97 + 10)
  else if 65 ≤ b ∧ b ≤ 70 then some (b - 65 + 10)
  else none

/-- The loop of `percent_decode`. -/
def unescape : Bytes → Except Rejected Bytes
  | [] => .ok []
  | b :: rest =>
    if b = 37 then
      match rest with
      | h :: l :: rest =>
        match hexVal h, hexVal l with
        | some hi, some lo => (unescape rest).map ((hi <<< 4 ||| lo) :: ·)
        | _, _ => .error .badEncoding
      | _ => .error .badEncoding
    else (unescape rest).map (b :: ·)

def percentDecode (s : Text) : Except Rejected Text :=
  if '%' ∈ s then do
    let out ← unescape (encodeUtf8 s)
    match decodeUtf8 out with
    | some decoded => .ok decoded
    | none => .error .illegalByte
  else .ok s

def isAsciiControl (b : UInt8) : Bool := b < 32 || b == 127

structure StaticFiles where
  root : Bytes
  index : Text

namespace StaticFiles

variable (files : StaticFiles)

/-- The loop of `resolve` over the segments: the path so far, and whether it has a named one. -/
def visit : List Text → Bytes × Bool → Except Rejected (Bytes × Bool)
  | [], acc => .ok acc
  | segment :: rest, acc =>
    if segment = [] ∨ segment = ['.'] then visit rest acc
    else if segment = ['.', '.'] then .error .traversal
    else if segment.head? = some '.' then .error .dotfile
    else visit rest (push acc.1 (encodeUtf8 segment), true)

def resolve (urlPath : Text) : Except Rejected Bytes := do
  let decoded ← percentDecode urlPath
  if (encodeUtf8 decoded).any fun b => b == 0 || b == 92 || isAsciiControl b then
    .error .illegalByte
  else
    let (path, hadNamedSegment) ← visit (decoded.splitOn '/') (files.root, false)
    if decoded.getLast? = some '/' ∨ ¬ hadNamedSegment then
      .ok (push path (encodeUtf8 files.index))
    else .ok path

end StaticFiles

/-- One decoding of a path: every escape is a byte, and nothing decoded is looked at again. -/
inductive Decodes : Bytes → Bytes → Prop
  | nil : Decodes [] []
  | escape {h l hi lo : UInt8} {s t : Bytes} : hexVal h = some hi → hexVal l = some lo →
    Decodes s t → Decodes (37 :: h :: l :: s) ((16 * hi + lo) :: t)
  | plain {b : UInt8} {s t : Bytes} : b ≠ 37 → Decodes s t → Decodes (b :: s) (b :: t)

theorem hexVal_lt {b v : UInt8} (h : hexVal b = some v) : v < 16 := by
  unfold hexVal at h
  simp only [UInt8.lt_iff_toNat_lt, UInt8.le_iff_toNat_le] at h ⊢
  split at h
  · cases Option.some.inj h
    simp only [UInt8.toNat_sub, UInt8.reduceToNat] at *
    omega
  split at h
  · cases Option.some.inj h
    simp only [UInt8.toNat_add, UInt8.toNat_sub, UInt8.reduceToNat] at *
    omega
  split at h
  · cases Option.some.inj h
    simp only [UInt8.toNat_add, UInt8.toNat_sub, UInt8.reduceToNat] at *
    omega
  · simp at h

theorem shift_or_eq {hi lo : UInt8} (hhi : hi < 16) (hlo : lo < 16) :
    hi <<< 4 ||| lo = 16 * hi + lo := by
  have hall : ∀ i j : Fin 16, UInt8.ofNat i <<< 4 ||| UInt8.ofNat j =
      16 * UInt8.ofNat i + UInt8.ofNat j := by decide
  have h := hall ⟨hi.toNat, UInt8.lt_iff_toNat_lt.mp hhi⟩ ⟨lo.toNat, UInt8.lt_iff_toNat_lt.mp hlo⟩
  simpa using h

theorem unescape_eq_ok_iff {s t : Bytes} : unescape s = .ok t ↔ Decodes s t := by
  constructor
  · intro h
    fun_induction unescape s generalizing t with
    | case1 =>
      cases h
      exact .nil
    | case2 h l rest hi lo hl hh ih =>
      obtain ⟨t, ht, rfl⟩ := map_eq_ok_iff.mp h
      rw [shift_or_eq (hexVal_lt hh) (hexVal_lt hl)]
      exact .escape hh hl (ih ht)
    | case3 | case4 => cases h
    | case5 b rest hne ih =>
      obtain ⟨t, ht, rfl⟩ := map_eq_ok_iff.mp h
      exact .plain hne (ih ht)
  · intro h
    induction h with
    | nil => rfl
    | escape hh hl _ ih =>
      simp [unescape, hh, hl, ih, Except.map, shift_or_eq (hexVal_lt hh) (hexVal_lt hl)]
    | plain hne _ ih =>
      unfold unescape
      rw [if_neg hne, ih]
      rfl

theorem Decodes.unique {s t t' : Bytes} (h : Decodes s t) (h' : Decodes s t') : t = t' :=
  Except.ok.inj ((unescape_eq_ok_iff.2 h).symm.trans (unescape_eq_ok_iff.2 h'))

theorem decodes_self {s : Bytes} (h : 37 ∉ s) : Decodes s s := by
  induction s with
  | nil => exact .nil
  | cons b s ih =>
    rw [List.mem_cons, not_or] at h
    exact .plain (Ne.symm h.1) (ih h.2)

theorem percentDecode_eq_ok_iff {s decoded : Text} :
    percentDecode s = .ok decoded ↔ Decodes (encodeUtf8 s) (encodeUtf8 decoded) := by
  unfold percentDecode
  split
  next =>
    rw [bind_eq_ok_iff]
    constructor
    · rintro ⟨out, hout, h⟩
      split at h
      next text htext =>
        cases h
        rw [encodeUtf8_of_decodeUtf8 htext]
        exact unescape_eq_ok_iff.1 hout
      next => cases h
    · intro h
      exact ⟨_, unescape_eq_ok_iff.2 h, by rw [decodeUtf8_encodeUtf8]⟩
  next hplain =>
    have hself : Decodes (encodeUtf8 s) (encodeUtf8 s) :=
      decodes_self fun hmem => hplain ((mem_encodeUtf8_ascii (d := '%') (by decide)).mp hmem)
    constructor
    · rintro ⟨⟩
      exact hself
    · intro h
      rw [encodeUtf8_injective (hself.unique h)]

namespace StaticFiles

def isName (segment : Text) : Bool := decide (segment ≠ [] ∧ segment ≠ ['.'])

/-- The segments of a decoded path that are not skipped. -/
def names (decoded : Text) : List Text := (decoded.splitOn '/').filter isName

def Directory (decoded : Text) : Prop := decoded.getLast? = some '/' ∨ names decoded = []

instance (decoded : Text) : Decidable (Directory decoded) :=
  inferInstanceAs (Decidable (_ ∨ _))

def LegalByte (b : UInt8) : Prop := b ≠ 92 ∧ isAsciiControl b = false

/-- No forbidden byte and no forbidden segment. -/
structure Servable (decoded : Text) : Prop where
  bytes : ∀ b ∈ encodeUtf8 decoded, LegalByte b
  segments : ∀ segment ∈ decoded.splitOn '/', isName segment → segment.head? ≠ some '.'

def place (files : StaticFiles) (decoded : Text) : Bytes :=
  ((names decoded).map encodeUtf8 ++
    if Directory decoded then [encodeUtf8 files.index] else []).foldl push files.root

theorem visit_eq_ok_iff {segments : List Text} {acc out : Bytes × Bool} :
    visit segments acc = .ok out ↔
      (∀ segment ∈ segments, isName segment → segment.head? ≠ some '.') ∧
      out = (((segments.filter isName).map encodeUtf8).foldl push acc.1,
        acc.2 || segments.any isName) := by
  induction segments generalizing acc with
  | nil =>
    simp only [visit, Except.ok.injEq, List.filter_nil, List.map_nil, List.foldl_nil,
      List.any_nil, Bool.or_false, List.not_mem_nil, false_imp_iff, implies_true, true_and]
    exact eq_comm
  | cons segment segments ih =>
    rw [visit, List.forall_mem_cons]
    split
    next hskip =>
      have hname : isName segment = false := by
        rw [isName, decide_eq_false_iff_not]
        tauto
      rw [ih, List.filter_cons_of_neg (by simp [hname]), List.any_cons, hname]
      simp
    next hskip =>
      have hname : isName segment = true := by
        rw [isName, decide_eq_true_iff]
        tauto
      split
      next hparent => simp [hparent, isName]
      split
      next hdot => simp [hdot, hname]
      next hdot =>
        rw [ih, List.filter_cons_of_pos hname, List.any_cons, hname]
        simp [hdot]

theorem illegal_eq_false_iff {b : UInt8} :
    (b == 0 || b == 92 || isAsciiControl b) = false ↔ LegalByte b := by
  rw [LegalByte, Bool.or_eq_false_iff, Bool.or_eq_false_iff, beq_eq_false_iff_ne,
    beq_eq_false_iff_ne, and_assoc]
  constructor
  · exact And.right
  · rintro ⟨hne, hcontrol⟩
    refine ⟨?_, hne, hcontrol⟩
    rintro rfl
    cases hcontrol

theorem place_eq (files : StaticFiles) (decoded : Text) :
    files.place decoded =
      if decoded.getLast? = some '/' ∨ ¬ (decoded.splitOn '/').any isName then
        push (((names decoded).map encodeUtf8).foldl push files.root) (encodeUtf8 files.index)
      else ((names decoded).map encodeUtf8).foldl push files.root := by
  have hnamed : (decoded.splitOn '/').any isName = true ↔ names decoded ≠ [] := by
    simp [names, List.filter_eq_nil_iff]
  have hdirectory : Directory decoded ↔
      decoded.getLast? = some '/' ∨ ¬ (decoded.splitOn '/').any isName := by
    rw [Directory, hnamed, not_not]
  unfold place
  by_cases h : Directory decoded
  · rw [if_pos h, if_pos (hdirectory.mp h), List.foldl_append]
    rfl
  · rw [if_neg h, if_neg (mt hdirectory.mpr h), List.append_nil]

theorem resolve_eq_ok_iff {files : StaticFiles} {url : Text} {path : Bytes} :
    files.resolve url = .ok path ↔ ∃ decoded,
      Decodes (encodeUtf8 url) (encodeUtf8 decoded) ∧ Servable decoded ∧
        path = files.place decoded := by
  unfold resolve
  rw [bind_eq_ok_iff]
  refine exists_congr fun decoded => and_congr percentDecode_eq_ok_iff ?_
  split
  next hbad =>
    obtain ⟨b, hb, hillegal⟩ := List.any_eq_true.mp hbad
    refine ⟨nofun, fun ⟨hservable, _⟩ => ?_⟩
    rw [illegal_eq_false_iff.2 (hservable.bytes b hb)] at hillegal
    cases hillegal
  next hgood =>
    have hbytes : ∀ b ∈ encodeUtf8 decoded, LegalByte b := fun b hb =>
      illegal_eq_false_iff.1 (Bool.eq_false_iff.mpr fun h =>
        hgood (List.any_eq_true.mpr ⟨b, hb, h⟩))
    rw [bind_eq_ok_iff, place_eq]
    constructor
    · rintro ⟨out, hvisit, hout⟩
      obtain ⟨hsegments, rfl⟩ := visit_eq_ok_iff.1 hvisit
      refine ⟨⟨hbytes, hsegments⟩, ?_⟩
      simp only [Bool.false_or] at hout
      split at hout
      next h =>
        rw [if_pos h]
        exact (Except.ok.inj hout).symm
      next h =>
        rw [if_neg h]
        exact (Except.ok.inj hout).symm
    · rintro ⟨hservable, rfl⟩
      refine ⟨_, visit_eq_ok_iff.2 ⟨hservable.segments, rfl⟩, ?_⟩
      simp only [Bool.false_or]
      split
      next => rfl
      next => rfl

/-- A kept segment of a servable path. -/
theorem Servable.name {decoded name : Text} (h : Servable decoded) (hname : name ∈ names decoded) :
    Plain (encodeUtf8 name) ∧ ∀ b ∈ encodeUtf8 name, LegalByte b := by
  obtain ⟨hseg, hkept⟩ := List.mem_filter.mp hname
  have hslash : '/' ∉ name := notMem_of_mem_splitOn hseg
  have hdot := h.segments name hseg hkept
  have hne : name ≠ [] := (of_decide_eq_true hkept).1
  obtain ⟨c, rest, rfl⟩ := List.exists_cons_of_ne_nil hne
  refine ⟨⟨?_, ?_, ?_⟩, fun b hb => ?_⟩
  · intro hnil
    rw [encodeUtf8_cons, List.append_eq_nil_iff] at hnil
    exact utf8EncodeChar_ne_nil c hnil.1
  · intro hhead
    rw [encodeUtf8_cons, List.head?_append_of_ne_nil _ (utf8EncodeChar_ne_nil c)] at hhead
    have hc : c.toNat = '.'.toNat := mem_utf8EncodeChar_ascii (by decide) (List.mem_of_head? hhead)
    exact hdot (by rw [Char.toNat_inj.mp hc]; rfl)
  · exact fun hmem => hslash ((mem_encodeUtf8_ascii (d := '/') (by decide)).mp hmem)
  · obtain ⟨d, hd, hb⟩ := List.mem_flatMap.mp hb
    exact h.bytes b (List.mem_flatMap.mpr ⟨d, mem_of_mem_splitOn hseg hd, hb⟩)

/-- What is served is the root with plain names after it, and the index for a directory; it leads
to a place under the root. -/
theorem resolve_confined (files : StaticFiles) (url : Text) :
    (∀ path, files.resolve url = .ok path → ∃ decoded,
      Decodes (encodeUtf8 url) (encodeUtf8 decoded) ∧
      (∀ other, Decodes (encodeUtf8 url) (encodeUtf8 other) → other = decoded) ∧
      (∀ name ∈ names decoded,
        Plain (encodeUtf8 name) ∧ ∀ b ∈ encodeUtf8 name, LegalByte b) ∧
      path = ((names decoded).map encodeUtf8 ++
        if Directory decoded then [encodeUtf8 files.index] else []).foldl push files.root ∧
      (∀ dir, follow dir path = follow (follow dir files.root ++ (names decoded).map encodeUtf8)
        (if Directory decoded then encodeUtf8 files.index else [])) ∧
      ((Directory decoded → Plain (encodeUtf8 files.index)) →
        ∀ dir, follow dir files.root <+: follow dir path)) ∧
    ∀ decoded, Decodes (encodeUtf8 url) (encodeUtf8 decoded) → Servable decoded →
      ∃ path, files.resolve url = .ok path := by
  refine ⟨fun path h => ?_, fun decoded hdecodes hservable =>
    ⟨_, resolve_eq_ok_iff.mpr ⟨decoded, hdecodes, hservable, rfl⟩⟩⟩
  obtain ⟨decoded, hdecodes, hservable, rfl⟩ := resolve_eq_ok_iff.mp h
  have hplain : ∀ name ∈ (names decoded).map encodeUtf8, Plain name := by
    intro name hname
    obtain ⟨segment, hsegment, rfl⟩ := List.mem_map.mp hname
    exact (hservable.name hsegment).1
  have hleads : ∀ dir, follow dir (files.place decoded) =
      follow (follow dir files.root ++ (names decoded).map encodeUtf8)
        (if Directory decoded then encodeUtf8 files.index else []) := by
    intro dir
    rw [place, List.foldl_append]
    split
    next => rw [List.foldl_cons, List.foldl_nil, follow_push, follow_foldl_push hplain]
    next => rw [List.foldl_nil, follow_foldl_push hplain, follow_nil]
  refine ⟨decoded, hdecodes, fun other hother => encodeUtf8_injective (hother.unique hdecodes),
    fun name hname => hservable.name hname, rfl, hleads, fun hindex dir => ?_⟩
  rw [hleads dir]
  split
  next hdir =>
    rw [follow_plain (hindex hdir), List.append_assoc]
    exact List.prefix_append ..
  next =>
    rw [follow_nil]
    exact List.prefix_append ..

end StaticFiles

end Kernway
