import Kernway.DnsLookup
import Kernway.FirstAt
import Kernway.Results
import Kernway.Utf8Lossy

namespace Kernway.Dns

def maxLabel : Nat := 63

def maxName : Nat := 255

def maxJumps : Nat := 32

/-- The loop of `encode_name` over the labels, and the terminating zero. -/
def encodeLabels (total : Nat) : List Bytes → Except DnsError Bytes
  | [] => .ok [0]
  | label :: labels =>
    if label = [] ∨ maxLabel < label.length then .error .nameTooLong
    else if maxName < total + (1 + label.length) then .error .nameTooLong
    else (encodeLabels (total + (1 + label.length)) labels).map fun bytes =>
      .ofNat label.length :: label ++ bytes

/-- The labels of a name, which `encode_name` writes: none where the name is empty. -/
def labelsOf (name : Text) : List Bytes :=
  let trimmed := stripSuffix '.' name
  if trimmed = [] then [] else (trimmed.splitOn '.').map encodeUtf8

def encodeName (name : Text) : Except DnsError Bytes := encodeLabels 1 (labelsOf name)

/-- The loop of `Reader::name`: where it reads, what it has read, and where the cursor was left by
the first jump. -/
structure NameState where
  pos : Nat
  labels : Bytes
  nameLen : Nat
  jumps : Nat
  left : Option Nat

inductive Progress
  | done (name : Text) (pos : Nat)
  | again (s : NameState)

def nameStep (buf : Bytes) (s : NameState) : Except DnsError Progress :=
  match buf[s.pos]? with
  | none => .error .truncated
  | some len =>
    if len &&& 0xC0 = 0 then
      if len = 0 then .ok (.done (decodeUtf8Lossy s.labels) (s.left.getD (s.pos + 1)))
      else
        let start := s.pos + 1
        let stop := start + len.toNat
        if buf.length < stop then .error .truncated
        else
          let label := (buf.drop start).take len.toNat
          let nameLen := s.nameLen + (len.toNat + 1)
          if maxName < nameLen then .error .nameTooLong
          else
            let labels := if s.labels = [] then label else s.labels ++ 46 :: label
            .ok (.again { s with pos := stop, labels := labels, nameLen := nameLen })
    else if len &&& 0xC0 = 0xC0 then
      match buf[s.pos + 1]? with
      | none => .error .truncated
      | some low =>
        let target := (len &&& 0x3F).toNat <<< 8 ||| low.toNat
        let jumps := s.jumps + 1
        -- only a jump to an earlier position, which bounds no loop by itself: labels lead back
        if maxJumps < jumps ∨ s.pos ≤ target then .error .malformedName
        else .ok (.again { s with pos := target, jumps := jumps, left := some (s.left.getD (s.pos + 2)) })
    else .error .malformedName

/-- What the loop has left: jumps, and bytes of the name. A jump gives no bytes back. -/
def NameState.budget (s : NameState) : Nat := (maxJumps - s.jumps) + (maxName - s.nameLen)

theorem nameStep_decreases {buf : Bytes} {s s' : NameState}
    (h : nameStep buf s = .ok (.again s')) : s'.budget < s.budget := by
  unfold nameStep at h
  split at h
  next => cases h
  next len hlen =>
    split at h
    next =>
      split at h
      next => cases h
      next hzero =>
        dsimp only at h
        split at h
        next => cases h
        next =>
          split at h
          next => cases h
          next hmax =>
            cases h
            have hpos : 0 < len.toNat := by
              have := UInt8.toNat_inj.not.mpr hzero
              have hz : (0 : UInt8).toNat = 0 := rfl
              omega
            simp only [NameState.budget]
            omega
    next =>
      split at h
      next =>
        split at h
        next => cases h
        next =>
          dsimp only at h
          split at h
          next => cases h
          next hmax =>
            cases h
            simp only [NameState.budget]
            omega
      next => cases h

/-- The loop of `Reader::name`. -/
def nameLoop (buf : Bytes) (s : NameState) : Except DnsError (Text × Nat) :=
  match _h : nameStep buf s with
  | .error e => .error e
  | .ok (.done name pos) => .ok (name, pos)
  | .ok (.again s') => nameLoop buf s'
termination_by s.budget
decreasing_by exact nameStep_decreases _h

/-- `Reader::name` at a cursor: the name, and where the cursor is left. -/
def readName (buf : Bytes) (pos : Nat) : Except DnsError (Text × Nat) :=
  nameLoop buf ⟨pos, [], 0, 0, none⟩

theorem nameLoop_eq (buf : Bytes) (s : NameState) : nameLoop buf s =
    match nameStep buf s with
    | .error e => .error e
    | .ok (.done name pos) => .ok (name, pos)
    | .ok (.again s') => nameLoop buf s' := by
  rw [nameLoop]
  split <;> simp only [*]

/-- A label stands at a position behind the byte with its length. -/
structure LabelAt (buf : Bytes) (pos : Nat) (label : Bytes) : Prop where
  length : buf[pos]? = some (.ofNat label.length)
  nonempty : label ≠ []
  short : label.length ≤ maxLabel
  stands : (buf.drop (pos + 1)).take label.length = label

/-- A compression pointer stands at a position. -/
def PointerAt (buf : Bytes) (pos target : Nat) : Prop :=
  ∃ high low : UInt8, buf[pos]? = some high ∧ buf[pos + 1]? = some low ∧ high &&& 0xC0 = 0xC0 ∧
    target = ((high &&& 0x3F).toNat <<< 8 ||| low.toNat)

/-- A name stands at a position: its labels, the number of pointers among them, each of which leads
back, and the position behind it. -/
inductive NameAt (buf : Bytes) : Nat → List Bytes → Nat → Nat → Prop
  | root {pos : Nat} : buf[pos]? = some 0 → NameAt buf pos [] 0 (pos + 1)
  | label {pos jumps after : Nat} {label : Bytes} {labels : List Bytes} : LabelAt buf pos label →
      NameAt buf (pos + 1 + label.length) labels jumps after →
      NameAt buf pos (label :: labels) jumps after
  | pointer {pos target jumps after : Nat} {labels : List Bytes} : PointerAt buf pos target →
      target < pos → NameAt buf target labels jumps after →
      NameAt buf pos labels (jumps + 1) (pos + 2)

theorem and_high_iff (b : UInt8) : b &&& 0xC0 = 0 ↔ b.toNat ≤ maxLabel := by
  have h : ∀ n < 256, UInt8.ofNat n &&& 0xC0 = 0 ↔ (UInt8.ofNat n).toNat ≤ 63 := by
    decide +kernel
  have hb := h b.toNat b.toNat_lt
  rwa [UInt8.ofNat_toNat] at hb

theorem nameStep_root {buf : Bytes} {s : NameState} (h : buf[s.pos]? = some 0) :
    nameStep buf s = .ok (.done (decodeUtf8Lossy s.labels) (s.left.getD (s.pos + 1))) := by
  rw [nameStep, h]
  rfl

def NameState.label (s : NameState) (label : Bytes) : NameState :=
  { s with
    pos := s.pos + 1 + label.length
    labels := if s.labels = [] then label else s.labels ++ 46 :: label
    nameLen := s.nameLen + (label.length + 1) }

def NameState.jump (s : NameState) (target : Nat) : NameState :=
  { s with pos := target, jumps := s.jumps + 1, left := some (s.left.getD (s.pos + 2)) }

theorem LabelAt.toNat_length {buf : Bytes} {pos : Nat} {label : Bytes}
    (h : LabelAt buf pos label) : (UInt8.ofNat label.length).toNat = label.length := by
  have hshort : label.length ≤ 63 := h.short
  rw [UInt8.toNat_ofNat']
  omega

theorem nameStep_label {buf label : Bytes} {s : NameState} (h : LabelAt buf s.pos label)
    (hmax : s.nameLen + (label.length + 1) ≤ maxName) :
    nameStep buf s = .ok (.again (s.label label)) := by
  have hnat := h.toNat_length
  have hsmall : UInt8.ofNat label.length &&& 0xC0 = 0 := by
    rw [and_high_iff, hnat]
    exact h.short
  have hzero : UInt8.ofNat label.length ≠ 0 := by
    intro heq
    have hlen : label.length = 0 := by
      rw [← hnat, heq]
      rfl
    exact h.nonempty (List.length_eq_zero_iff.mp hlen)
  have hroom : s.pos + 1 + label.length ≤ buf.length := by
    have hlen := congrArg List.length h.stands
    have hpos := List.length_pos_iff.mpr h.nonempty
    rw [List.length_take, List.length_drop] at hlen
    omega
  rw [nameStep, h.length]
  dsimp only
  rw [if_pos hsmall, if_neg hzero, hnat, if_neg (by omega), if_neg (by omega), h.stands]
  rfl

theorem nameStep_pointer {buf : Bytes} {s : NameState} {target : Nat}
    (h : PointerAt buf s.pos target) (hback : target < s.pos) (hjumps : s.jumps < maxJumps) :
    nameStep buf s = .ok (.again (s.jump target)) := by
  obtain ⟨high, low, hhigh, hlow, hbits, htarget⟩ := h
  have hlarge : ¬ high &&& 0xC0 = 0 := by
    rw [hbits]
    decide
  rw [nameStep, hhigh]
  dsimp only
  rw [if_neg hlarge, if_pos hbits, hlow]
  dsimp only
  rw [← htarget, if_neg (by omega)]
  rfl

/-- What a step finds at the position where it reads. -/
theorem nameStep_cases {buf : Bytes} {s : NameState} {p : Progress} (h : nameStep buf s = .ok p) :
    (buf[s.pos]? = some 0 ∧
      p = .done (decodeUtf8Lossy s.labels) (s.left.getD (s.pos + 1))) ∨
    (∃ label, LabelAt buf s.pos label ∧ s.nameLen + (label.length + 1) ≤ maxName ∧
      p = .again (s.label label)) ∨
    (∃ target, PointerAt buf s.pos target ∧ target < s.pos ∧ s.jumps < maxJumps ∧
      p = .again (s.jump target)) := by
  unfold nameStep at h
  split at h
  next => cases h
  next len hlen =>
    split at h
    next hsmall =>
      split at h
      next hzero =>
        cases h
        subst hzero
        exact Or.inl ⟨hlen, rfl⟩
      next hzero =>
        dsimp only at h
        split at h
        next => cases h
        next hroom =>
          split at h
          next => cases h
          next hmax =>
            cases h
            let label := (buf.drop (s.pos + 1)).take len.toNat
            have hlabel : label.length = len.toNat := by
              rw [List.length_take, List.length_drop]
              omega
            have hpos : 0 < len.toNat := by
              have := UInt8.toNat_inj.not.mpr hzero
              have hz : (0 : UInt8).toNat = 0 := rfl
              omega
            have hat : LabelAt buf s.pos label := by
              constructor
              · rw [hlabel, UInt8.ofNat_toNat, hlen]
              · exact List.length_pos_iff.mp (by omega)
              · rw [hlabel]
                exact (and_high_iff len).mp hsmall
              · rw [hlabel]
            refine Or.inr (Or.inl ⟨label, hat, by omega, ?_⟩)
            simp only [NameState.label, hlabel]
            rfl
    next hlarge =>
      split at h
      next hbits =>
        split at h
        next => cases h
        next low hlow =>
          dsimp only at h
          split at h
          next => cases h
          next hjump =>
            cases h
            refine Or.inr (Or.inr ⟨_, ⟨len, low, hlen, hlow, hbits, rfl⟩, ?_, ?_, rfl⟩)
            · omega
            · omega
      next => cases h

/-- How many bytes the labels take, with the bytes for their lengths. -/
def spelled : List Bytes → Nat
  | [] => 0
  | label :: labels => label.length + 1 + spelled labels

theorem length_spelled (labels : List Bytes) :
    (labels.flatMap fun label => .ofNat label.length :: label).length = spelled labels := by
  induction labels with
  | nil => rfl
  | cons label labels ih =>
    rw [List.flatMap_cons, List.length_append, ih, spelled, List.length_cons]

/-- The wire form of a name without pointers: the labels, and the terminating zero. -/
def wireLength (labels : List Bytes) : Nat := spelled labels + 1

/-- The labels behind those that are read, with a dot between each two. -/
def joinLabels (read : Bytes) (labels : List Bytes) : Bytes :=
  labels.foldl (fun read label => if read = [] then label else read ++ 46 :: label) read

/-- A name is read where it stands within the limits. -/
theorem nameLoop_eq_ok_iff {buf : Bytes} {s : NameState} {name : Text} {next : Nat}
    (hlen : s.nameLen ≤ maxName) (hjumps : s.jumps ≤ maxJumps) :
    nameLoop buf s = .ok (name, next) ↔
      ∃ labels jumps after, NameAt buf s.pos labels jumps after ∧ s.jumps + jumps ≤ maxJumps ∧
        s.nameLen + spelled labels ≤ maxName ∧
        name = decodeUtf8Lossy (joinLabels s.labels labels) ∧ next = s.left.getD after := by
  constructor
  · intro h
    induction s using nameLoop.induct buf with
    | case1 s e herror =>
      rw [nameLoop_eq, herror] at h
      cases h
    | case2 s name' pos hdone =>
      rw [nameLoop_eq, hdone] at h
      cases h
      rcases nameStep_cases hdone with ⟨hroot, heq⟩ | ⟨label, -, -, heq⟩ | ⟨target, -, -, -, heq⟩
      · cases heq
        exact ⟨[], 0, s.pos + 1, .root hroot, hjumps, hlen, rfl, rfl⟩
      · cases heq
      · cases heq
    | case3 s s' hagain ih =>
      rw [nameLoop_eq, hagain] at h
      rcases nameStep_cases hagain with ⟨-, heq⟩ | ⟨label, hat, hmax, heq⟩ |
        ⟨target, hat, hback, hfew, heq⟩
      · cases heq
      · cases heq
        obtain ⟨labels, jumps, after, hname, hj, hl, heq, hnext⟩ := ih hmax hjumps h
        refine ⟨label :: labels, jumps, after, .label hat hname, hj, ?_, heq, hnext⟩
        rw [spelled]
        have hl' : s.nameLen + (label.length + 1) + spelled labels ≤ maxName := hl
        omega
      · cases heq
        obtain ⟨labels, jumps, after, hname, hj, hl, heq, hnext⟩ := ih hlen hfew h
        have hj' : s.jumps + 1 + jumps ≤ maxJumps := hj
        exact ⟨labels, jumps + 1, s.pos + 2, .pointer hat hback hname, by omega, hl, heq, hnext⟩
  · intro ⟨labels, jumps, after, hname, hj, hl, hshown, hnext⟩
    subst hshown hnext
    generalize hpos : s.pos = pos at hname
    induction hname generalizing s with
    | root hroot =>
      subst hpos
      rw [nameLoop_eq, nameStep_root hroot]
      rfl
    | @label pos jumps after label labels hat _ ih =>
      subst hpos
      rw [spelled] at hl
      have hmax : s.nameLen + (label.length + 1) ≤ maxName := by omega
      have hrest : s.nameLen + (label.length + 1) + spelled labels ≤ maxName := by omega
      rw [nameLoop_eq, nameStep_label hat hmax]
      exact ih hmax hjumps hj hrest rfl
    | @pointer pos target jumps after labels hat hback _ ih =>
      subst hpos
      have hfew : s.jumps + 1 + jumps ≤ maxJumps := by omega
      rw [nameLoop_eq, nameStep_pointer hat hback (by omega)]
      exact ih hlen (by show s.jumps + 1 ≤ maxJumps; omega) hfew hl rfl

theorem readName_eq_ok_iff {buf : Bytes} {pos : Nat} {name : Text} {next : Nat} :
    readName buf pos = .ok (name, next) ↔
      ∃ labels jumps, NameAt buf pos labels jumps next ∧ jumps ≤ maxJumps ∧
        spelled labels ≤ maxName ∧ name = decodeUtf8Lossy (joinLabels [] labels) := by
  rw [readName, nameLoop_eq_ok_iff (Nat.zero_le _) (Nat.zero_le _)]
  dsimp only
  constructor
  · intro ⟨labels, jumps, after, hname, hj, hl, hshown, hnext⟩
    have hafter : next = after := hnext
    subst hafter
    exact ⟨labels, jumps, hname, by omega, by omega, hshown⟩
  · intro ⟨labels, jumps, hname, hj, hl, hshown⟩
    exact ⟨labels, jumps, next, hname, by omega, by omega, hshown, rfl⟩

theorem wellFounded_nameStep (buf : Bytes) :
    WellFounded fun s' s => nameStep buf s = .ok (.again s') := by
  apply Subrelation.wf (r := InvImage (· < ·) NameState.budget)
  · exact fun h => nameStep_decreases h
  · exact InvImage.wf _ Nat.lt_wfRel.wf

/-- The length that `encode_name` counts is the one of the wire form. -/
theorem encodeLabels_eq_ok_iff {total : Nat} {labels : List Bytes} {bytes : Bytes}
    (htotal : total ≤ maxName) :
    encodeLabels total labels = .ok bytes ↔
      (∀ label ∈ labels, label ≠ [] ∧ label.length ≤ maxLabel) ∧
      total + spelled labels ≤ maxName ∧
      bytes = labels.flatMap (fun label => .ofNat label.length :: label) ++ [0] := by
  induction labels generalizing total bytes with
  | nil =>
    rw [encodeLabels]
    constructor
    · intro h
      cases h
      exact ⟨by simp, htotal, rfl⟩
    · intro ⟨_, _, hbytes⟩
      rw [hbytes]
      rfl
  | cons label labels ih =>
    rw [encodeLabels, List.forall_mem_cons, spelled]
    split
    next hbad =>
      constructor
      · intro h
        cases h
      · intro ⟨⟨hlabel, _⟩, _, _⟩
        rcases hbad with hempty | hlong
        · exact absurd hempty hlabel.1
        · omega
    next hgood =>
      have hlabel : label ≠ [] ∧ label.length ≤ maxLabel := by
        rw [not_or] at hgood
        exact ⟨hgood.1, by omega⟩
      split
      next hlong =>
        constructor
        · intro h
          cases h
        · intro ⟨_, hl, _⟩
          omega
      next hmax =>
        have hih := fun tail => @ih (total + (1 + label.length)) tail (by omega)
        constructor
        · intro h
          obtain ⟨tail, htail, rfl⟩ := map_eq_ok_iff.mp h
          obtain ⟨hlabels, hl, rfl⟩ := (hih tail).mp htail
          exact ⟨⟨hlabel, hlabels⟩, by omega, by simp⟩
        · intro ⟨⟨_, hlabels⟩, hl, hbytes⟩
          rw [(hih _).mpr ⟨hlabels, by omega, rfl⟩, hbytes]
          simp [Except.map]

theorem encodeName_eq_ok_iff {name : Text} {bytes : Bytes} :
    encodeName name = .ok bytes ↔
      (∀ label ∈ labelsOf name, label ≠ [] ∧ label.length ≤ maxLabel) ∧
      wireLength (labelsOf name) ≤ maxName ∧
      bytes = (labelsOf name).flatMap (fun label => .ofNat label.length :: label) ++ [0] := by
  rw [encodeName, encodeLabels_eq_ok_iff (by decide), wireLength, Nat.add_comm]

theorem getElem?_of_drop {buf rest : Bytes} {pos : Nat} {b : UInt8}
    (h : buf.drop pos = b :: rest) : buf[pos]? = some b := by
  rw [← List.head?_drop, h, List.head?_cons]

theorem labelAt_of_drop {buf label rest : Bytes} {pos : Nat}
    (h : buf.drop pos = .ofNat label.length :: label ++ rest) (hne : label ≠ [])
    (hshort : label.length ≤ maxLabel) : LabelAt buf pos label := by
  refine ⟨getElem?_of_drop h, hne, hshort, ?_⟩
  have hbehind : buf.drop (pos + 1) = label ++ rest := by
    rw [← List.drop_drop, h, List.cons_append, List.drop_one, List.tail_cons]
  rw [hbehind, List.take_left]

/-- What `encode_name` writes is a name without pointers. -/
theorem nameAt_encoded {buf rest : Bytes} {labels : List Bytes} {pos : Nat}
    (hlabels : ∀ label ∈ labels, label ≠ [] ∧ label.length ≤ maxLabel)
    (h : buf.drop pos = labels.flatMap (fun label => .ofNat label.length :: label) ++ 0 :: rest) :
    NameAt buf pos labels 0 (pos + wireLength labels) := by
  induction labels generalizing pos with
  | nil => exact .root (getElem?_of_drop h)
  | cons label labels ih =>
    rw [List.forall_mem_cons] at hlabels
    rw [List.flatMap_cons, List.append_assoc] at h
    have hbehind := drop_of_drop h
    rw [List.length_cons, Nat.add_comm label.length 1, ← Nat.add_assoc] at hbehind
    have hname := ih hlabels.2 hbehind
    have hafter : pos + 1 + label.length + wireLength labels = pos + wireLength (label :: labels) := by
      simp only [wireLength, spelled]
      omega
    rw [hafter] at hname
    exact .label (labelAt_of_drop h hlabels.1.1 hlabels.1.2) hname

theorem joinLabels_eq {read : Bytes} (hread : read ≠ []) (labels : List Bytes) :
    joinLabels read labels = read ++ labels.flatMap (46 :: ·) := by
  induction labels generalizing read with
  | nil => simp [joinLabels]
  | cons label labels ih =>
    have hne : read ++ 46 :: label ≠ [] := List.append_ne_nil_of_left_ne_nil hread _
    have hstep : joinLabels read (label :: labels) = joinLabels (read ++ 46 :: label) labels := by
      rw [joinLabels, List.foldl_cons, if_neg hread]
      rfl
    rw [hstep, ih hne, List.flatMap_cons, List.append_assoc]

theorem intercalate_dot (text : Text) (texts : List Text) :
    ['.'].intercalate (text :: texts) = text ++ texts.flatMap ('.' :: ·) := by
  induction texts generalizing text with
  | nil => simp
  | cons next texts ih =>
    rw [List.intercalate_cons_cons, ih, List.flatMap_cons, List.append_assoc]
    rfl

/-- The labels of a text are joined to the text. -/
theorem joinLabels_encodeUtf8 {texts : List Text} (hne : ∀ text ∈ texts, encodeUtf8 text ≠ []) :
    joinLabels [] (texts.map encodeUtf8) = encodeUtf8 (['.'].intercalate texts) := by
  cases texts with
  | nil => rfl
  | cons text texts =>
    have hstep : joinLabels [] ((text :: texts).map encodeUtf8) =
        joinLabels (encodeUtf8 text) (texts.map encodeUtf8) := rfl
    rw [hstep, joinLabels_eq (hne text (by simp))]
    rw [intercalate_dot, encodeUtf8_append]
    congr 1
    simp only [encodeUtf8, List.flatMap_map, List.flatMap_assoc, List.flatMap_cons]
    rfl

theorem joinLabels_labelsOf {name : Text}
    (h : ∀ label ∈ labelsOf name, label ≠ [] ∧ label.length ≤ maxLabel) :
    joinLabels [] (labelsOf name) = encodeUtf8 (stripSuffix '.' name) := by
  unfold labelsOf at h ⊢
  dsimp only at h ⊢
  split at h
  next hempty =>
    rw [if_pos hempty, hempty]
    rfl
  next hempty =>
    rw [if_neg hempty, joinLabels_encodeUtf8, List.intercalate_splitOn]
    intro text htext
    exact (h _ (List.mem_map_of_mem htext)).1

theorem labelsOf_sized_iff {name : Text} :
    ((∀ label ∈ labelsOf name, label ≠ [] ∧ label.length ≤ maxLabel) ∧
      wireLength (labelsOf name) ≤ maxName) ↔
      stripSuffix '.' name = [] ∨
        ((∀ label ∈ (stripSuffix '.' name).splitOn '.',
          1 ≤ (encodeUtf8 label).length ∧ (encodeUtf8 label).length ≤ maxLabel) ∧
        wireLength (((stripSuffix '.' name).splitOn '.').map encodeUtf8) ≤ maxName) := by
  unfold labelsOf
  dsimp only
  split
  next hempty =>
    constructor
    · intro
      exact Or.inl hempty
    · intro
      exact ⟨by simp, by decide⟩
  next hempty =>
    simp only [hempty, false_or, List.forall_mem_map]
    refine and_congr_left' (forall₂_congr fun label _ => and_congr_left' ?_)
    rw [Nat.one_le_iff_ne_zero, ne_eq, ne_eq, List.length_eq_zero_iff]

/-- A name is read back from the bytes that it is written as, wherever they stand. -/
theorem readName_encodeName {name : Text} {bytes buf : Bytes} {pos : Nat}
    (h : encodeName name = .ok bytes) (hstands : (buf.drop pos).take bytes.length = bytes) :
    readName buf pos = .ok (stripSuffix '.' name, pos + bytes.length) := by
  obtain ⟨hlabels, hlen, rfl⟩ := encodeName_eq_ok_iff.1 h
  let bytes := (labelsOf name).flatMap (fun label => .ofNat label.length :: label) ++ [(0 : UInt8)]
  have hdrop : buf.drop pos = (labelsOf name).flatMap (fun label => .ofNat label.length :: label) ++
      0 :: (buf.drop pos).drop bytes.length := by
    have hsplit := List.take_append_drop bytes.length (buf.drop pos)
    rw [hstands, List.append_assoc] at hsplit
    exact hsplit.symm
  have hname := nameAt_encoded hlabels hdrop
  have hbytes : bytes.length = wireLength (labelsOf name) := by
    rw [wireLength, List.length_append, length_spelled]
    rfl
  rw [hbytes]
  refine readName_eq_ok_iff.2 ⟨labelsOf name, 0, hname, Nat.zero_le _, ?_, ?_⟩
  · rw [wireLength] at hlen
    omega
  · rw [joinLabels_labelsOf hlabels, decodeUtf8Lossy_encodeUtf8]

theorem LabelAt.toNat_byte {buf label : Bytes} {pos : Nat} {b : UInt8} (h : LabelAt buf pos label)
    (hb : buf[pos]? = some b) : b.toNat = label.length := by
  have heq := hb.symm.trans h.length
  cases heq
  exact h.toNat_length

theorem LabelAt.unique {buf label label' : Bytes} {pos : Nat} (h : LabelAt buf pos label)
    (h' : LabelAt buf pos label') : label = label' := by
  have hlen : label'.length = label.length := by
    rw [← h.toNat_byte h'.length, h'.toNat_length]
  rw [← h.stands, ← h'.stands, hlen]

theorem PointerAt.large {buf : Bytes} {pos target : Nat} {b : UInt8} (h : PointerAt buf pos target)
    (hb : buf[pos]? = some b) : maxLabel < b.toNat := by
  obtain ⟨high, low, hhigh, -, hbits, -⟩ := h
  have heq := hb.symm.trans hhigh
  cases heq
  by_contra hsmall
  rw [Nat.not_lt, ← and_high_iff, hbits] at hsmall
  exact absurd hsmall (by decide)

theorem PointerAt.unique {buf : Bytes} {pos target target' : Nat} (h : PointerAt buf pos target)
    (h' : PointerAt buf pos target') : target = target' := by
  obtain ⟨high, low, hhigh, hlow, -, rfl⟩ := h
  obtain ⟨high', low', hhigh', hlow', -, rfl⟩ := h'
  cases hhigh.symm.trans hhigh'
  cases hlow.symm.trans hlow'
  rfl

/-- One list of labels at most stands at a position. -/
theorem NameAt.unique {buf : Bytes} {pos jumps after jumps' after' : Nat}
    {labels labels' : List Bytes} (h : NameAt buf pos labels jumps after)
    (h' : NameAt buf pos labels' jumps' after') : labels = labels' := by
  induction h generalizing labels' jumps' after' with
  | root hroot =>
    cases h' with
    | root => rfl
    | label hat =>
      have hlen := hat.toNat_byte hroot
      exact absurd (List.length_eq_zero_iff.mp hlen.symm) hat.nonempty
    | pointer hat =>
      have hlarge := hat.large hroot
      exact absurd hlarge (by decide)
  | label hat _ ih =>
    cases h' with
    | root hroot =>
      have hlen := hat.toNat_byte hroot
      exact absurd (List.length_eq_zero_iff.mp hlen.symm) hat.nonempty
    | label hat' hname' =>
      cases hat.unique hat'
      rw [ih hname']
    | pointer hat' =>
      have hlarge := hat'.large hat.length
      rw [hat.toNat_length] at hlarge
      exact absurd hat.short (Nat.not_le.mpr hlarge)
  | pointer hat _ _ ih =>
    cases h' with
    | root hroot =>
      have hlarge := hat.large hroot
      exact absurd hlarge (by decide)
    | label hat' =>
      have hlarge := hat.large hat'.length
      rw [hat'.toNat_length] at hlarge
      exact absurd hat'.short (Nat.not_le.mpr hlarge)
    | pointer hat' _ hname' =>
      cases hat.unique hat'
      exact ih hname'

/-- The labels at a position take all the bytes of a name and leave none for the zero. -/
def FillsName (buf : Bytes) (pos : Nat) : Prop :=
  ∃ labels jumps after, NameAt buf pos labels jumps after ∧ jumps ≤ maxJumps ∧
    spelled labels = maxName

theorem readName_short_iff {buf : Bytes} {pos : Nat} :
    (∀ name next, readName buf pos = .ok (name, next) →
      ∃ labels jumps, NameAt buf pos labels jumps next ∧
        name = decodeUtf8Lossy (joinLabels [] labels) ∧ wireLength labels ≤ maxName) ↔
    ¬ FillsName buf pos := by
  constructor
  · intro h ⟨labels, jumps, after, hname, hjumps, hfull⟩
    have hread := readName_eq_ok_iff.2 ⟨labels, jumps, hname, hjumps, by omega, rfl⟩
    obtain ⟨labels', jumps', hname', -, hlen⟩ := h _ _ hread
    cases hname.unique hname'
    rw [wireLength] at hlen
    omega
  · intro h name next hread
    obtain ⟨labels, jumps, hname, hjumps, hlen, hshown⟩ := readName_eq_ok_iff.1 hread
    have hshort : spelled labels ≠ maxName := fun hfull =>
      h ⟨labels, jumps, next, hname, hjumps, hfull⟩
    refine ⟨labels, jumps, hname, hshown, ?_⟩
    rw [wireLength]
    omega

/-- The codec of names: which names are written, that they are read back, that each name is read in
finitely many steps, and where a name that is read is short enough. -/
theorem name_codec (name : Text) (buf : Bytes) (pos : Nat) :
    ((∃ bytes, encodeName name = .ok bytes) ↔
      stripSuffix '.' name = [] ∨
        ((∀ label ∈ (stripSuffix '.' name).splitOn '.',
          1 ≤ (encodeUtf8 label).length ∧ (encodeUtf8 label).length ≤ maxLabel) ∧
        wireLength (((stripSuffix '.' name).splitOn '.').map encodeUtf8) ≤ maxName)) ∧
    (∀ bytes, encodeName name = .ok bytes → (buf.drop pos).take bytes.length = bytes →
      readName buf pos = .ok (stripSuffix '.' name, pos + bytes.length)) ∧
    (WellFounded fun s' s => nameStep buf s = .ok (.again s')) ∧
    ((∀ found next, readName buf pos = .ok (found, next) →
        ∃ labels jumps, NameAt buf pos labels jumps next ∧
          found = decodeUtf8Lossy (joinLabels [] labels) ∧ wireLength labels ≤ maxName) ↔
      ¬ FillsName buf pos) := by
  refine ⟨?_, fun _ => readName_encodeName, wellFounded_nameStep buf, readName_short_iff⟩
  rw [← labelsOf_sized_iff]
  constructor
  · intro ⟨bytes, h⟩
    obtain ⟨hlabels, hlen, -⟩ := encodeName_eq_ok_iff.mp h
    exact ⟨hlabels, hlen⟩
  · intro ⟨hlabels, hlen⟩
    exact ⟨_, encodeName_eq_ok_iff.mpr ⟨hlabels, hlen, rfl⟩⟩

/-- Three labels of 63 bytes and one of 62. -/
def longLabels : List Bytes :=
  [List.replicate 63 97, List.replicate 63 97, List.replicate 63 97, List.replicate 62 97]

def longPacket : Bytes := longLabels.flatMap (fun label => .ofNat label.length :: label) ++ [0]

theorem fillsName_longPacket : FillsName longPacket 0 :=
  ⟨longLabels, 0, _, nameAt_encoded (by simp [longLabels, maxLabel]) rfl, by decide, by decide⟩

/-- A name of 256 bytes is read. -/
theorem not_readName_short : ¬ ∀ (buf : Bytes) (pos : Nat) (name : Text) (next : Nat),
    readName buf pos = .ok (name, next) →
      ∃ labels jumps, NameAt buf pos labels jumps next ∧
        name = decodeUtf8Lossy (joinLabels [] labels) ∧ wireLength labels ≤ maxName := by
  intro h
  exact readName_short_iff.mp (h longPacket 0) fillsName_longPacket

end Kernway.Dns
