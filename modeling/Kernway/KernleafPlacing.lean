import Kernway.KernleafExpr
import Kernway.Substitution
import Kernway.FormPairs
import Kernway.UriReference
import Kernway.Decimal

namespace Kernway.Kernleaf

open Substitution (Cells Own template text fill each)

/-- A URL in front of its query and its fragment. -/
def urlPath (url : Text) : Text := url.takeWhile fun c => !Uri.endsPath c

/-- The names and values of a URL's query. -/
def urlPairs (url : Text) : List (Text × Text) :=
  ((Uri.splitQuery (url.dropWhile fun c => !Uri.endsPath c)).1.map Form.pairs).getD []

/-- The base with each parameter's value in the parameter's own places, and the parameters that have
none. -/
def placed (cells : Cells Char) (remaining : List (Text × Text)) :
    List (Text × Text) → Cells Char × List (Text × Text)
  | [] => (cells, remaining)
  | (name, value) :: params =>
    if template (placeholder name) <:+: cells then
      placed (fill (placeholder name) (urlEncode value) cells) remaining params
    else placed cells (remaining ++ [(name, value)]) params

/-- No value that was put into the base makes a placeholder of a later parameter. -/
def UrlOwn (cells : Cells Char) : List (Text × Text) → Prop
  | [] => True
  | (name, value) :: params =>
    Own (placeholder name) cells ∧
      if template (placeholder name) <:+: cells then
        UrlOwn (fill (placeholder name) (urlEncode value) cells) params
      else UrlOwn cells params

instance UrlOwn.decidable : (cells : Cells Char) → (params : List (Text × Text)) →
    Decidable (UrlOwn cells params)
  | _, [] => .isTrue trivial
  | cells, (name, value) :: params =>
    have := UrlOwn.decidable (fill (placeholder name) (urlEncode value) cells) params
    have := UrlOwn.decidable cells params
    inferInstanceAs (Decidable (Own (placeholder name) cells ∧
      if template (placeholder name) <:+: cells then
        UrlOwn (fill (placeholder name) (urlEncode value) cells) params
      else UrlOwn cells params))

/-- The path is the base's with the values in their places, and the query has the base's own
parameters and then the others. -/
structure PlacesOnce (base : Text) (params : List (Text × Text)) (url : Text) : Prop where
  path : urlPath url = urlPath (text (placed (template base) [] params).1)
  query : urlPairs url = urlPairs (text (placed (template base) [] params).1) ++
    (placed (template base) [] params).2

/-- There are no parameters to be appended, or the base ends with its path. -/
def Appendable (base : Text) (params : List (Text × Text)) : Prop :=
  (placed (template base) [] params).2 = [] ∨
    ∀ c ∈ text (placed (template base) [] params).1, Uri.endsPath c = false

/-- The arguments with their placeholders, from the one numbered `i` on. -/
def numbered (i : Nat) : List Text → List (Text × Text)
  | [] => []
  | arg :: args => (placeholder (digitsOf i), arg) :: numbered (i + 1) args

/-- The text of a message with its arguments put in one pass. -/
def simultaneous (message : Text) (args : List Text) : Text :=
  text (each (numbered 0 args) message)

/-- No argument that was put into the message makes a placeholder of the next one. -/
def ArgsOwn (message : Text) (args : List Text) : Prop :=
  ∀ (i : Nat) (arg : Text), args[i]? = some arg → arg = placeholder (digitsOf i) ∨
    Own (placeholder (digitsOf i)) (each (numbered 0 (args.take i)) message)

theorem replaceText_eq (pat new s : Text) : replaceText pat new s = Substitution.replaceAll pat new s := by
  induction hlength : s.length using Nat.strong_induction_on generalizing s with
  | _ n ih =>
    subst hlength
    cases s with
    | nil => rw [replaceText, Substitution.replaceAll]
    | cons c s =>
      have hlt : (s.drop (pat.length - 1)).length < (c :: s).length := by
        rw [List.length_drop, List.length_cons]
        omega
      rw [replaceText, Substitution.replaceAll, ih _ hlt _ rfl, ih _ (Nat.lt_succ_self _) _ rfl]

theorem containsText_iff_occurs {s pat : Text} : containsText s pat = true ↔ pat <:+: s := by
  rw [containsText_iff]
  constructor
  · rintro ⟨before, after, rfl⟩
    exact List.infix_append before pat after
  · rintro ⟨before, after, rfl⟩
    exact ⟨before, after, rfl⟩

theorem placeholder_ne_nil (name : Text) : placeholder name ≠ [] := List.cons_ne_nil _ _

section Url

/-- The texts of a base and its own places agree on which parameters have a place. -/
theorem urlParams_eq {params : List (Text × Text)} {cells : Cells Char} (h : UrlOwn cells params)
    (remaining : List (Text × Text)) :
    urlParams (text cells) remaining params =
      (text (placed cells remaining params).1, (placed cells remaining params).2) := by
  induction params generalizing cells remaining with
  | nil => rfl
  | cons param params ih =>
    obtain ⟨name, value⟩ := param
    obtain ⟨hown, hrest⟩ := h
    have hoccurs := hown.occurs_iff (placeholder_ne_nil name)
    unfold urlParams placed
    by_cases hin : template (placeholder name) <:+: cells
    · rw [if_pos hin] at hrest ⊢
      rw [if_pos (containsText_iff_occurs.2 (hoccurs.mpr hin)), replaceText_eq,
        ← Substitution.text_fill (placeholder_ne_nil name) _ hown]
      exact ih hrest remaining
    · rw [if_neg hin] at hrest ⊢
      rw [if_neg fun hcontains => hin (hoccurs.mp (containsText_iff_occurs.1 hcontains))]
      exact ih hrest _

theorem isUnreserved_iff (b : UInt8) : isUnreserved b = true ↔
    (65 ≤ b.toNat ∧ b.toNat ≤ 90) ∨ (97 ≤ b.toNat ∧ b.toNat ≤ 122) ∨
      (48 ≤ b.toNat ∧ b.toNat ≤ 57) ∨ b.toNat ∈ [45, 95, 46, 126] := by
  simp only [isUnreserved, Char.reduceToNat, Bool.or_eq_true, Bool.and_eq_true, decide_eq_true_eq,
    beq_iff_eq, List.mem_cons, List.not_mem_nil, or_false]
  omega

theorem toNat_ofNat_byte (b : UInt8) : (Char.ofNat b.toNat).toNat = b.toNat := by
  have hlt := b.toNat_lt
  have hvalid : b.toNat.isValidChar := .inl (by omega)
  unfold Char.ofNat
  rw [dif_pos hvalid]
  rfl

/-- A mark of a URL, of a query or of a placeholder is not written as it is. -/
theorem ofNat_ne_of_isUnreserved {b : UInt8} (h : isUnreserved b = true) {d : Char}
    (hd : d.toNat ∈ [35, 37, 38, 43, 61, 63, 123]) : Char.ofNat b.toNat ≠ d := by
  have hcode := (isUnreserved_iff b).mp h
  rintro rfl
  rw [toNat_ofNat_byte] at hd
  simp only [List.mem_cons, List.not_mem_nil, or_false] at hcode hd
  omega

/-- The text of a byte in a URL is the byte, or an escape of it. -/
theorem encodeUtf8_urlByte (b : UInt8) :
    b ≠ 37 ∧ b ≠ 43 ∧ encodeUtf8 (urlByte b) = [b] ∨
      ∃ h l, encodeUtf8 (urlByte b) = [37, h, l] ∧ Form.hexValue h = some (b.toNat / 16) ∧
        Form.hexValue l = some (b.toNat % 16) := by
  have hdigit : ∀ n < 16, ∃ d, encodeUtf8 (hexUpper n) = [d] ∧ Form.hexValue d = some n := by
    have hall : ∀ n : Fin 16, (encodeUtf8 (hexUpper n)).length = 1 ∧
        (encodeUtf8 (hexUpper n)).head?.bind Form.hexValue = some (n : Nat) := by
      decide
    intro n hn
    obtain ⟨hlength, hvalue⟩ := hall ⟨n, hn⟩
    obtain ⟨d, hd⟩ := List.length_eq_one_iff.mp hlength
    rw [hd] at hvalue
    exact ⟨d, hd, hvalue⟩
  by_cases hb : isUnreserved b = true
  · left
    have hcode := (isUnreserved_iff b).mp hb
    simp only [List.mem_cons, List.not_mem_nil, or_false] at hcode
    have hascii : (Char.ofNat b.toNat).toNat ≤ 127 := by
      rw [toNat_ofNat_byte]
      omega
    refine ⟨?_, ?_, ?_⟩
    · rintro rfl
      simp at hcode
    · rintro rfl
      simp at hcode
    · rw [urlByte, if_pos hb, encodeUtf8_cons, utf8EncodeChar_ascii hascii, toNat_ofNat_byte,
        UInt8.ofNat_toNat]
      rfl
  · right
    obtain ⟨h, hh, hhval⟩ := hdigit (b.toNat / 16) (by have := b.toNat_lt; omega)
    obtain ⟨l, hl, hlval⟩ := hdigit (b.toNat % 16) (Nat.mod_lt _ (by decide))
    refine ⟨h, l, ?_, hhval, hlval⟩
    unfold urlByte
    rw [if_neg hb, encodeUtf8_cons, encodeUtf8_append, hh, hl]
    rfl

theorem unescape_urlEncode (s : Text) (rest : Bytes) :
    Form.unescape (encodeUtf8 (urlEncode s) ++ rest) = encodeUtf8 s ++ Form.unescape rest := by
  have hbytes : ∀ bytes : Bytes, Form.unescape (encodeUtf8 (bytes.flatMap urlByte) ++ rest) =
      bytes ++ Form.unescape rest := by
    intro bytes
    induction bytes with
    | nil => rfl
    | cons b bytes ih =>
      rw [List.flatMap_cons, encodeUtf8_append, List.append_assoc]
      rcases encodeUtf8_urlByte b with ⟨hpercent, hplus, heq⟩ | ⟨h, l, heq, hh, hl⟩
      · rw [heq, List.singleton_append, Form.unescape_plain hpercent hplus, ih]
        rfl
      · have hvalue : b.toNat / 16 * 16 + b.toNat % 16 = b.toNat := Nat.div_add_mod' _ _
        rw [heq]
        show Form.unescape (37 :: h :: l :: (encodeUtf8 (bytes.flatMap urlByte) ++ rest)) = _
        rw [Form.unescape_escape hh hl, hvalue, UInt8.ofNat_toNat, ih]
        rfl
  exact hbytes (encodeUtf8 s)

theorem decode_urlEncode (s : Text) : Form.decode (urlEncode s) = s := by
  have h := unescape_urlEncode s []
  have hnil : Form.unescape [] = [] := by rw [Form.unescape]
  rw [hnil, List.append_nil, List.append_nil] at h
  unfold Form.decode
  rw [h, decodeUtf8Lossy_encodeUtf8]

theorem decode_question (s : Text) : Form.decode ('?' :: urlEncode s) = '?' :: s := by
  have h := unescape_urlEncode s []
  have hnil : Form.unescape [] = [] := by rw [Form.unescape]
  have hmark : encodeUtf8 ('?' :: urlEncode s) = 63 :: encodeUtf8 (urlEncode s) := rfl
  rw [hnil, List.append_nil, List.append_nil] at h
  unfold Form.decode
  rw [hmark, Form.unescape_plain (by decide) (by decide), h]
  exact decodeUtf8Lossy_encodeUtf8 ('?' :: s)

/-- No mark of a URL is in an encoded value. -/
theorem plain_of_mem_urlEncode {s : Text} {c : Char} (h : c ∈ urlEncode s) :
    c ≠ '?' ∧ c ≠ '#' ∧ c ≠ '&' ∧ c ≠ '=' ∧ c ≠ '{' := by
  have hdigits : ∀ n : Fin 16, ∀ d ∈ hexUpper n,
      d ≠ '?' ∧ d ≠ '#' ∧ d ≠ '&' ∧ d ≠ '=' ∧ d ≠ '{' := by
    have hall : ∀ n : Fin 16, (hexUpper n).all (fun d =>
        decide (d ≠ '?' ∧ d ≠ '#' ∧ d ≠ '&' ∧ d ≠ '=' ∧ d ≠ '{')) = true := by
      decide
    exact fun n d hd => of_decide_eq_true (List.all_eq_true.mp (hall n) d hd)
  obtain ⟨b, _, hb⟩ := List.mem_flatMap.mp h
  have hlt := b.toNat_lt
  unfold urlByte at hb
  split at hb
  next hplain =>
    obtain rfl := List.mem_singleton.mp hb
    have hne := @ofNat_ne_of_isUnreserved b hplain
    exact ⟨hne (by decide), hne (by decide), hne (by decide), hne (by decide), hne (by decide)⟩
  next =>
    rcases List.mem_cons.mp hb with rfl | hb
    · decide
    · rcases List.mem_append.mp hb with hb | hb
      · exact hdigits ⟨b.toNat / 16, by omega⟩ c hb
      · exact hdigits ⟨b.toNat % 16, by omega⟩ c hb

def piece (param : Text × Text) : Text := urlEncode param.1 ++ '=' :: urlEncode param.2

theorem pair_piece (param : Text × Text) : Form.pair (piece param) = param := by
  have hname : '=' ∉ urlEncode param.1 := fun h => (plain_of_mem_urlEncode h).2.2.2.1 rfl
  rw [piece, Form.pair_eq hname, decode_urlEncode, decode_urlEncode]

theorem pair_question (param : Text × Text) :
    Form.pair ('?' :: piece param) = ('?' :: param.1, param.2) := by
  have hname : '=' ∉ '?' :: urlEncode param.1 := by
    rw [List.mem_cons]
    rintro (h | h)
    · cases h
    · exact (plain_of_mem_urlEncode h).2.2.2.1 rfl
  rw [piece, ← List.cons_append, Form.pair_eq hname, decode_question, decode_urlEncode]

theorem amp_notMem_piece (param : Text × Text) : '&' ∉ piece param := by
  rw [piece, List.mem_append, List.mem_cons]
  rintro (h | h | h)
  · exact (plain_of_mem_urlEncode h).2.2.1 rfl
  · cases h
  · exact (plain_of_mem_urlEncode h).2.2.1 rfl

theorem piece_ne_nil (param : Text × Text) : piece param ≠ [] := by
  unfold piece
  exact List.append_ne_nil_of_right_ne_nil _ (List.cons_ne_nil _ _)

theorem sharp_notMem_pieces (params : List (Text × Text)) :
    '#' ∉ ['&'].intercalate (params.map piece) := by
  rw [mem_intercalate (by decide)]
  rintro ⟨p, hp, h⟩
  obtain ⟨param, _, rfl⟩ := List.mem_map.mp hp
  rw [piece, List.mem_append, List.mem_cons] at h
  rcases h with h | h | h
  · exact (plain_of_mem_urlEncode h).2.1 rfl
  · cases h
  · exact (plain_of_mem_urlEncode h).2.1 rfl

theorem pairs_pieces (params : List (Text × Text)) :
    Form.pairs (['&'].intercalate (params.map piece)) = params := by
  rw [Form.pairs_intercalate, List.map_map]
  · exact (List.map_congr_left fun param _ => pair_piece param).trans (List.map_id params)
  · intro p hp
    obtain ⟨param, _, rfl⟩ := List.mem_map.mp hp
    exact ⟨amp_notMem_piece param, piece_ne_nil param⟩

/-- The path and the query of a text whose path is cut off. -/
theorem urlPath_append {path : Text} (h : ∀ c ∈ path, Uri.endsPath c = false) {d : Char}
    (hd : Uri.endsPath d = true) (rest : Text) :
    urlPath (path ++ d :: rest) = path ∧
      urlPairs (path ++ d :: rest) = ((Uri.splitQuery (d :: rest)).1.map Form.pairs).getD [] := by
  have hpath : ∀ c ∈ path, (!Uri.endsPath c) = true := fun c hc => by rw [h c hc]; rfl
  have hd' : ¬ (!Uri.endsPath d) = true := by
    rw [hd]
    decide
  have htake : (d :: rest).takeWhile (fun c => !Uri.endsPath c) = [] :=
    List.takeWhile_cons_of_neg hd'
  have hdrop : (d :: rest).dropWhile (fun c => !Uri.endsPath c) = d :: rest :=
    List.dropWhile_cons_of_neg hd'
  unfold urlPath urlPairs
  rw [List.takeWhile_append_of_pos hpath, List.dropWhile_append_of_pos hpath, htake, hdrop,
    List.append_nil]
  exact ⟨rfl, rfl⟩

theorem urlPath_plain {path : Text} (h : ∀ c ∈ path, Uri.endsPath c = false) :
    urlPath path = path ∧ urlPairs path = [] := by
  have hpath : ∀ c ∈ path, (!Uri.endsPath c) = true := fun c hc => by rw [h c hc]; rfl
  unfold urlPath urlPairs
  rw [List.takeWhile_eq_self_iff.mpr hpath, List.dropWhile_eq_nil_iff.mpr hpath]
  exact ⟨rfl, rfl⟩

/-- A query that is put behind a text is read there where the text is a path only. -/
theorem urlPairs_append_iff (base : Text) {params : List (Text × Text)} (hne : params ≠ []) :
    urlPairs (base ++ '?' :: ['&'].intercalate (params.map piece)) = urlPairs base ++ params ↔
      ∀ c ∈ base, Uri.endsPath c = false := by
  have hquery : ∀ q : Text, '#' ∉ q → q.takeWhile (· ≠ '#') = q := by
    intro q hq
    apply List.takeWhile_eq_self_iff.mpr
    intro c hc
    apply decide_eq_true
    rintro rfl
    exact hq hc
  by_cases hplain : ∀ c ∈ base, Uri.endsPath c = false
  · refine iff_of_true ?_ hplain
    rw [(urlPath_append hplain (by decide) _).2, (urlPath_plain hplain).2]
    show Form.pairs ((['&'].intercalate (params.map piece)).takeWhile (· ≠ '#')) = params
    rw [hquery _ (sharp_notMem_pieces params), pairs_pieces]
  · refine iff_of_false ?_ hplain
    have hdrop : base.dropWhile (fun c => !Uri.endsPath c) ≠ [] := by
      rw [Ne, List.dropWhile_eq_nil_iff]
      intro hall
      exact hplain fun c hc => by simpa using hall c hc
    obtain ⟨d, rest, hcons⟩ := List.exists_cons_of_ne_nil hdrop
    have hpath : ∀ c ∈ base.takeWhile (fun c => !Uri.endsPath c), Uri.endsPath c = false := by
      intro c hc
      have hends := List.mem_takeWhile_imp hc
      simpa using hends
    have hd : Uri.endsPath d = true := by
      have hnot := List.head?_dropWhile_not (fun c => !Uri.endsPath c) base
      rw [hcons] at hnot
      simpa using hnot
    have hsplit : base = base.takeWhile (fun c => !Uri.endsPath c) ++ d :: rest := by
      rw [← hcons, List.takeWhile_append_dropWhile]
    rw [hsplit, List.append_assoc, List.cons_append, (urlPath_append hpath hd _).2,
      (urlPath_append hpath hd _).2]
    have hmark : d = '?' ∨ d = '#' := by
      unfold Uri.endsPath at hd
      simpa using hd
    rcases hmark with rfl | rfl
    · show Form.pairs ((rest ++ '?' :: _).takeWhile (· ≠ '#')) ≠
        Form.pairs (rest.takeWhile (· ≠ '#')) ++ params
      by_cases hsharp : '#' ∈ rest
      · have htake : ∀ more : Text, (rest ++ more).takeWhile (· ≠ '#') = rest.takeWhile (· ≠ '#') := by
          intro more
          rw [List.takeWhile_append, if_neg]
          intro hlength
          have hall := (List.takeWhile_prefix _).eq_of_length hlength
          have hne := List.takeWhile_eq_self_iff.mp hall '#' hsharp
          exact of_decide_eq_true hne rfl
        rw [htake]
        intro heq
        have hcount := congrArg List.length heq
        rw [List.length_append] at hcount
        exact hne (List.length_eq_zero_iff.mp (by omega))
      · obtain ⟨param, params, rfl⟩ := List.exists_cons_of_ne_nil hne
        have hboth : '#' ∉ rest ++ '?' :: ['&'].intercalate ((param :: params).map piece) := by
          rw [List.mem_append, List.mem_cons]
          rintro (h | h | h)
          · exact hsharp h
          · cases h
          · exact sharp_notMem_pieces _ h
        have hfirst : ∃ behind, ['&'].intercalate ((param :: params).map piece) =
            piece param ++ behind ∧
              (behind = [] ∧ params = [] ∨ ∃ more, behind = '&' :: more ∧ params = Form.pairs more) := by
          cases params with
          | nil => exact ⟨[], by simp, .inl ⟨rfl, rfl⟩⟩
          | cons next params =>
            refine ⟨'&' :: ['&'].intercalate ((next :: params).map piece), ?_, .inr ⟨_, rfl, ?_⟩⟩
            · simp [List.intercalate]
            · exact (pairs_pieces (next :: params)).symm
        obtain ⟨behind, hpieces, hbehind⟩ := hfirst
        have hname : Form.pair ('?' :: piece param) ≠ Form.pair (piece param) := by
          rw [pair_question, pair_piece]
          intro heq
          have hlength := congrArg (fun p => p.1.length) heq
          simp at hlength
        have hne := Form.pairs_question_ne (amp_notMem_piece param) hbehind hname rest
        rw [pair_piece] at hne
        rwa [hquery _ hboth, hquery _ hsharp, hpieces]
    · show [] ≠ [] ++ params
      rw [List.nil_append]
      exact hne.symm

/-- `eval_url`, where no value makes a placeholder, places each value once exactly where nothing is
to be appended or the base ends with its path. -/
theorem placesOnce_iff {base : Text} {params : List (Text × Text)}
    (h : UrlOwn (template base) params) (contextPath : Text) :
    (∃ url, evalUrl base params contextPath = contextPath ++ url ∧ PlacesOnce base params url) ↔
      Appendable base params := by
  have hparams := urlParams_eq h []
  rw [Substitution.text_template] at hparams
  have hurl : evalUrl base params contextPath = contextPath ++
      if (placed (template base) [] params).2.isEmpty then
        text (placed (template base) [] params).1
      else text (placed (template base) [] params).1 ++
        '?' :: ['&'].intercalate ((placed (template base) [] params).2.map piece) := by
    unfold evalUrl
    rw [hparams]
    rfl
  have hexists : (∃ url, evalUrl base params contextPath = contextPath ++ url ∧
      PlacesOnce base params url) ↔ PlacesOnce base params
        (if (placed (template base) [] params).2.isEmpty then
          text (placed (template base) [] params).1
        else text (placed (template base) [] params).1 ++
          '?' :: ['&'].intercalate ((placed (template base) [] params).2.map piece)) := by
    rw [hurl]
    constructor
    · rintro ⟨url, heq, hplaces⟩
      rwa [List.append_cancel_left heq]
    · exact fun hplaces => ⟨_, rfl, hplaces⟩
  rw [hexists]
  by_cases hnil : (placed (template base) [] params).2 = []
  · rw [if_pos (List.isEmpty_iff.mpr hnil)]
    refine iff_of_true ⟨rfl, ?_⟩ (.inl hnil)
    rw [hnil, List.append_nil]
  · rw [if_neg (by rwa [List.isEmpty_iff])]
    have happend := urlPairs_append_iff (text (placed (template base) [] params).1) hnil
    constructor
    · exact fun hplaces => .inr (happend.mp hplaces.query)
    · intro happendable
      have hplain := happendable.resolve_left hnil
      refine ⟨?_, happend.mpr hplain⟩
      rw [(urlPath_append hplain (by decide) _).1, (urlPath_plain hplain).1]

theorem own_of_not_infix {name : Text} {cells : Cells Char}
    (h : ¬ placeholder name <:+: text cells) : Own (placeholder name) cells := by
  induction cells with
  | nil => trivial
  | cons cell cells ih =>
    have hrest : ¬ placeholder name <:+: text cells := by
      intro hin
      apply h
      show _ <:+: text ([cell] ++ cells)
      rw [Substitution.text_append]
      exact hin.trans (List.suffix_append _ _).isInfix
    cases cell with
    | gap => exact ih hrest
    | own c => exact ⟨fun hpre => absurd hpre.isInfix h, ih hrest⟩
    | put c => exact ⟨fun hpre => absurd hpre.isInfix h, ih hrest⟩

/-- The first parameter alone is placed as in the base's own places exactly if no value has made its
placeholder. -/
theorem urlParams_first {name : Text} (hname : '{' ∉ name) (value : Text) {cells : Cells Char}
    {remaining : List (Text × Text)}
    (h : urlParams (text cells) remaining [(name, value)] =
      (text (placed cells remaining [(name, value)]).1, (placed cells remaining [(name, value)]).2)) :
    Own (placeholder name) cells := by
  unfold urlParams placed at h
  by_cases hcontains : containsText (text cells) (placeholder name) = true
  · rw [if_pos hcontains] at h
    by_cases hin : template (placeholder name) <:+: cells
    · rw [if_pos hin] at h
      have htext : replaceText (placeholder name) (urlEncode value) (text cells) =
        text (fill (placeholder name) (urlEncode value) cells) := (Prod.mk.inj h).1
      have hfresh : '{' ∉ name ++ ['}'] := by
        rw [List.mem_append, List.mem_singleton]
        rintro (h | h)
        · exact hname h
        · cases h
      have hne : urlEncode value ≠ placeholder name := by
        intro heq
        have hbrace : '{' ∈ urlEncode value := by
          rw [heq]
          exact List.mem_cons_self ..
        exact (plain_of_mem_urlEncode hbrace).2.2.2.2 rfl
      rw [replaceText_eq, eq_comm] at htext
      exact ((Substitution.text_fill_iff hfresh _ cells).mp htext).resolve_left hne
    · rw [if_neg hin] at h
      have hsame : remaining = remaining ++ [(name, value)] := (Prod.mk.inj h).2
      have hlength := congrArg List.length hsame
      simp at hlength
  · exact own_of_not_infix fun hin => hcontains (containsText_iff_occurs.2 hin)

/-- All initial parts of the parameters are placed in the base's own places exactly if no value makes
a placeholder of a later one. -/
theorem urlParams_iff {params : List (Text × Text)} (hnames : ∀ param ∈ params, '{' ∉ param.1)
    (cells : Cells Char) (remaining : List (Text × Text)) :
    (∀ k ≤ params.length, urlParams (text cells) remaining (params.take k) =
      (text (placed cells remaining (params.take k)).1, (placed cells remaining (params.take k)).2)) ↔
      UrlOwn cells params := by
  induction params generalizing cells remaining with
  | nil => exact iff_of_true (fun k _ => by rw [List.take_nil]; rfl) trivial
  | cons param params ih =>
    obtain ⟨name, value⟩ := param
    have hrest := ih fun p hp => hnames p (List.mem_cons_of_mem _ hp)
    have hname := hnames _ (List.mem_cons_self ..)
    -- With its first parameter in place, what is left of the run is that of the others.
    have hstep : Own (placeholder name) cells → ((∀ k ≤ params.length,
        urlParams (text cells) remaining ((name, value) :: params.take k) =
          (text (placed cells remaining ((name, value) :: params.take k)).1,
            (placed cells remaining ((name, value) :: params.take k)).2)) ↔
        if template (placeholder name) <:+: cells then
          UrlOwn (fill (placeholder name) (urlEncode value) cells) params
        else UrlOwn cells params) := by
      intro hown
      have hoccurs := hown.occurs_iff (placeholder_ne_nil name)
      unfold urlParams placed
      by_cases hin : template (placeholder name) <:+: cells
      · simp only [if_pos (containsText_iff_occurs.2 (hoccurs.mpr hin)), if_pos hin, replaceText_eq,
          ← Substitution.text_fill (placeholder_ne_nil name) _ hown]
        exact hrest _ _
      · have hnot : ¬ containsText (text cells) (placeholder name) = true :=
          fun hcontains => hin (hoccurs.mp (containsText_iff_occurs.1 hcontains))
        simp only [if_neg hnot, if_neg hin]
        exact hrest _ _
    constructor
    · intro hall
      have hown := urlParams_first hname value (hall 1 (by simp))
      exact ⟨hown, (hstep hown).mp fun k hk => hall (k + 1) (Nat.succ_le_succ hk)⟩
    · rintro ⟨hown, hafter⟩ k hk
      cases k with
      | zero => rfl
      | succ k => exact (hstep hown).mpr hafter k (Nat.le_of_succ_le_succ hk)

end Url

section Msg

variable {message : Text} {args : List Text}

theorem brace_notMem (i : Nat) : '{' ∉ digitsOf i ++ ['}'] := by
  rw [List.mem_append, List.mem_singleton]
  rintro (h | h)
  · exact notMem_toDigits (by decide) i h
  · cases h

theorem numbered_append (i : Nat) (args : List Text) (arg : Text) :
    numbered i (args ++ [arg]) =
      numbered i args ++ [(placeholder (digitsOf (i + args.length)), arg)] := by
  induction args generalizing i with
  | nil => rfl
  | cons first args ih =>
    rw [List.cons_append, numbered, ih, numbered, List.length_cons, List.cons_append,
      Nat.add_assoc, Nat.add_comm 1]

theorem head_numbered (i : Nat) (args : List Text) :
    ∀ entry ∈ numbered i args, entry.1.head? = some '{' := by
  induction args generalizing i with
  | nil => exact fun _ h => nomatch h
  | cons arg args ih =>
    intro entry h
    rcases List.mem_cons.mp h with rfl | h
    · rfl
    · exact ih (i + 1) entry h

theorem fillArgs_append (message : Text) (i : Nat) (args : List Text) (arg : Text) :
    fillArgs message i (args ++ [arg]) =
      replaceText (placeholder (digitsOf (i + args.length))) arg (fillArgs message i args) := by
  induction args generalizing message i with
  | nil => rfl
  | cons first args ih =>
    rw [List.cons_append, fillArgs, ih, fillArgs, List.length_cons, Nat.add_assoc, Nat.add_comm 1]

theorem each_nil (message : Text) : each [] message = template message := by
  induction message with
  | nil => rw [each]; rfl
  | cons c message ih =>
    rw [each]
    exact congrArg _ ih

/-- One more argument is put in rightly exactly if it is its placeholder, or no argument before it
has made one. -/
theorem simultaneous_concat (hargs : fillArgs message 0 args = simultaneous message args) (arg : Text) :
    fillArgs message 0 (args ++ [arg]) = simultaneous message (args ++ [arg]) ↔
      arg = placeholder (digitsOf args.length) ∨
        Own (placeholder (digitsOf args.length)) (each (numbered 0 args) message) := by
  have heach := Substitution.fill_each (head_numbered 0 args) (brace_notMem args.length) arg message
  have hstep := Substitution.text_fill_iff (brace_notMem args.length) arg
    (each (numbered 0 args) message)
  rw [heach] at hstep
  rw [fillArgs_append, hargs, replaceText_eq, eq_comm, simultaneous, simultaneous, numbered_append,
    Nat.zero_add]
  exact hstep

/-- All initial parts of the arguments are put in rightly exactly if none makes a placeholder of the
next. -/
theorem fillArgs_iff (message : Text) (args : List Text) :
    (∀ k ≤ args.length, fillArgs message 0 (args.take k) = simultaneous message (args.take k)) ↔
      ArgsOwn message args := by
  have hstep : ∀ i (hi : i < args.length), args.take (i + 1) = args.take i ++ [args[i]] :=
    fun i hi => List.take_succ_eq_append_getElem hi
  constructor
  · intro hall i arg harg
    obtain ⟨hi, rfl⟩ := List.getElem?_eq_some_iff.mp harg
    have hlength : (args.take i).length = i := List.length_take_of_le (Nat.le_of_lt hi)
    have hnext := hall (i + 1) hi
    rw [hstep i hi, simultaneous_concat (hall i (Nat.le_of_lt hi)), hlength] at hnext
    exact hnext
  · intro hown k hk
    induction k with
    | zero =>
      show message = text (each [] message)
      rw [each_nil, Substitution.text_template]
    | succ k ih =>
      have hlength : (args.take k).length = k := List.length_take_of_le (Nat.le_of_succ_le hk)
      rw [hstep k hk, simultaneous_concat (ih (Nat.le_of_succ_le hk)), hlength]
      exact hown k args[k] (List.getElem?_eq_getElem hk)

end Msg

/-- A URL has each value in its place, if no value makes a placeholder, exactly where nothing is
appended or the base ends with its path; each initial part of its parameters is placed in the base's
own places exactly where no value makes a placeholder; and a message has, with each initial part of
its arguments, what one pass puts in, exactly where no argument makes a placeholder of the next. -/
theorem expressions_place_once (base : Text) (params : List (Text × Text)) (contextPath key : Text)
    (args : List Text) (messages : Table Text Text) :
    (UrlOwn (template base) params →
      ((∃ url, evalUrl base params contextPath = contextPath ++ url ∧ PlacesOnce base params url) ↔
        Appendable base params)) ∧
    ((∀ param ∈ params, '{' ∉ param.1) →
      ((∀ k ≤ params.length, urlParams base [] (params.take k) =
        (text (placed (template base) [] (params.take k)).1,
          (placed (template base) [] (params.take k)).2)) ↔ UrlOwn (template base) params)) ∧
    ((∀ k ≤ args.length, evalMsg key (args.take k) messages =
        (messages.lookup key).elim ("??".toList ++ key ++ "??".toList)
          fun message => simultaneous message (args.take k)) ↔
      ∀ message ∈ messages.lookup key, ArgsOwn message args) := by
  refine ⟨fun h => placesOnce_iff h contextPath, fun hnames => ?_, ?_⟩
  · have hiff := urlParams_iff hnames (template base) []
    rwa [Substitution.text_template] at hiff
  unfold evalMsg
  cases messages.lookup key with
  | none => exact iff_of_true (fun _ _ => rfl) fun _ h => nomatch h
  | some message =>
    have hmem : (∀ m ∈ some message, ArgsOwn m args) ↔ ArgsOwn message args := by
      simp only [Option.mem_def, Option.some.injEq, forall_eq']
    rw [hmem]
    exact fillArgs_iff message args

theorem expressions_place_once_search :
    (∃ url, evalUrl "/u/{id}".toList [("id".toList, "7".toList), ("q".toList, "a b".toList)] [] =
      [] ++ url ∧ PlacesOnce "/u/{id}".toList
        [("id".toList, "7".toList), ("q".toList, "a b".toList)] url) ↔
      Appendable "/u/{id}".toList [("id".toList, "7".toList), ("q".toList, "a b".toList)] :=
  (expressions_place_once "/u/{id}".toList [("id".toList, "7".toList), ("q".toList, "a b".toList)] []
    [] [] ∅).1 (by decide +kernel)

/-- A base with a query gets a second question mark, and an argument is put into another one. -/
theorem not_expressions_place_once :
    (¬ ∃ url, evalUrl "/x?y=1".toList [("a".toList, "v".toList)] [] = [] ++ url ∧
      PlacesOnce "/x?y=1".toList [("a".toList, "v".toList)] url) ∧
    fillArgs "{0}".toList 0 ["{1}".toList, "z".toList] ≠
      simultaneous "{0}".toList ["{1}".toList, "z".toList] := by
  constructor
  · rintro ⟨url, heq, hplaces⟩
    have hquery := hplaces.query
    rw [List.nil_append] at heq
    rw [← heq] at hquery
    revert hquery
    decide +kernel
  · decide +kernel

end Kernway.Kernleaf
