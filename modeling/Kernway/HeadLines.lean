import Kernway.Results
import Kernway.Str

namespace Kernway

/-- The lines of a head up to its blank line, and what stands after it. A line ends at a line feed,
with or without a carriage return before it. -/
@[semireducible] def splitHead (buf : Bytes) : Option (List Bytes × Bytes) :=
  match _h : cutAt 10 buf with
  | none => none
  | some (line, rest) =>
    if stripSuffix 13 line = [] then some ([], rest)
    else (splitHead rest).map fun head => (stripSuffix 13 line :: head.1, head.2)
termination_by buf.length
decreasing_by have := cutAt_length _h; omega

/-- The name and the value of a header line; the blank after the colon is not of the value. -/
def readField (line : Bytes) : Option (Bytes × Bytes) :=
  (cutAt 58 line).map fun cut => (cut.1, if cut.2.head? = some 32 then cut.2.tail else cut.2)

/-- The first line of a message, its headers, and its body with all that follows. -/
def readMessage (buf : Bytes) : Option (Bytes × List (Bytes × Bytes) × Bytes) := do
  let (lines, body) ← splitHead buf
  match lines with
  | [] => none
  | first :: rest => return (first, ← rest.mapM readField, body)

theorem splitHead_cons {line : Bytes} (h : 10 ∉ line) (hne : line ≠ []) (rest : Bytes) :
    splitHead (line ++ 13 :: 10 :: rest) =
      (splitHead rest).map fun head => (line :: head.1, head.2) := by
  have hcut : cutAt 10 (line ++ 13 :: 10 :: rest) = some (line ++ [13], rest) :=
    cutAt_eq_some_iff.mpr ⟨by simp, by simpa using h⟩
  have hstrip : stripSuffix 13 (line ++ [13]) = line := by simp [stripSuffix]
  rw [splitHead]
  split
  next hn => rw [hcut] at hn; cases hn
  next l r hs =>
    obtain ⟨rfl, rfl⟩ := Prod.mk.inj (Option.some.inj (hcut.symm.trans hs))
    rw [hstrip, if_neg hne]

theorem splitHead_blank (rest : Bytes) : splitHead (13 :: 10 :: rest) = some ([], rest) := by
  rw [splitHead]
  rfl

theorem splitHead_lines {lines : List Bytes} (h : ∀ line ∈ lines, 10 ∉ line ∧ line ≠ [])
    (body : Bytes) :
    splitHead (lines.flatMap (fun line => line ++ [13, 10]) ++ 13 :: 10 :: body) =
      some (lines, body) := by
  induction lines with
  | nil => exact splitHead_blank body
  | cons line lines ih =>
    obtain ⟨hline, hne⟩ := h line (List.mem_cons_self ..)
    have hrest := ih fun l hl => h l (List.mem_cons_of_mem line hl)
    simp only [List.flatMap_cons, List.append_assoc, List.cons_append, List.nil_append]
    rw [splitHead_cons hline hne, hrest]
    rfl

theorem notMem_of_splitHead {buf body line : Bytes} {lines : List Bytes}
    (h : splitHead buf = some (lines, body)) (hline : line ∈ lines) : 10 ∉ line := by
  induction hl : buf.length using Nat.strongRecOn generalizing buf lines with
  | _ n ih =>
    rw [splitHead] at h
    split at h
    next => cases h
    next before rest hcut =>
      split at h
      next =>
        cases h
        simp at hline
      next =>
        obtain ⟨head, hhead, heq⟩ := Option.map_eq_some_iff.mp h
        obtain ⟨rfl, rfl⟩ := Prod.mk.inj heq
        rcases List.mem_cons.mp hline with rfl | hline
        · have hbefore := (cutAt_eq_some_iff.mp hcut).2
          unfold stripSuffix
          split
          next => exact fun hmem => hbefore (List.dropLast_subset _ hmem)
          next => exact hbefore
        · have hlen := cutAt_length hcut
          exact ih rest.length (by omega) hhead hline rfl

theorem readField_eq {name value : Bytes} (h : 58 ∉ name) :
    readField (name ++ 58 :: 32 :: value) = some (name, value) := by
  have hcut : cutAt 58 (name ++ 58 :: 32 :: value) = some (name, 32 :: value) :=
    cutAt_eq_some_iff.mpr ⟨rfl, h⟩
  rw [readField, hcut]
  rfl

/-- A header that is read has no colon in its name and no line feed at all. -/
theorem notMem_of_readField {line name value : Bytes} (h : readField line = some (name, value)) :
    58 ∉ name ∧ (∀ b ∈ name, b ∈ line) ∧ ∀ b ∈ value, b ∈ line := by
  obtain ⟨⟨before, after⟩, hcut, heq⟩ := Option.map_eq_some_iff.mp h
  obtain ⟨rfl, rfl⟩ := Prod.mk.inj heq
  obtain ⟨rfl, hcolon⟩ := cutAt_eq_some_iff.mp hcut
  refine ⟨hcolon, fun b hb => List.mem_append_left _ hb, fun b hb => ?_⟩
  refine List.mem_append_right _ (List.mem_cons_of_mem _ ?_)
  dsimp only at hb
  split at hb
  next => exact List.mem_of_mem_tail hb
  next => exact hb

theorem readMessage_clean {buf first body name value : Bytes} {fields : List (Bytes × Bytes)}
    (h : readMessage buf = some (first, fields, body)) (hf : (name, value) ∈ fields) :
    58 ∉ name ∧ 10 ∉ name ∧ 10 ∉ value := by
  obtain ⟨⟨lines, rest⟩, hhead, h⟩ := Option.bind_eq_some_iff.mp h
  cases lines with
  | nil => cases h
  | cons line lines =>
    obtain ⟨read, hread, h⟩ := Option.bind_eq_some_iff.mp h
    obtain ⟨rfl, rfl, rfl⟩ : line = first ∧ read = fields ∧ rest = body := by simpa using h
    obtain ⟨l, hl, hfield⟩ : ∃ l ∈ lines, readField l = some (name, value) :=
      exists_of_mem_mapM_some hread hf
    have hlf := notMem_of_splitHead hhead (List.mem_cons_of_mem line hl)
    obtain ⟨hcolon, hname, hvalue⟩ := notMem_of_readField hfield
    exact ⟨hcolon, fun hmem => hlf (hname 10 hmem), fun hmem => hlf (hvalue 10 hmem)⟩

theorem readMessage_lines {first : Bytes} {fields : List (Bytes × Bytes)}
    (hfirst : 10 ∉ first ∧ first ≠ [])
    (h : ∀ field ∈ fields, 58 ∉ field.1 ∧ 10 ∉ field.1 ∧ 10 ∉ field.2) (body : Bytes) :
    readMessage (first ++ 13 :: 10 :: (fields.flatMap
      (fun field => field.1 ++ 58 :: 32 :: field.2 ++ [13, 10]) ++ 13 :: 10 :: body)) =
      some (first, fields, body) := by
  have hline : ∀ line ∈ first :: fields.map (fun field => field.1 ++ 58 :: 32 :: field.2),
      10 ∉ line ∧ line ≠ [] := by
    intro line hline
    rcases List.mem_cons.mp hline with rfl | hline
    · exact hfirst
    obtain ⟨field, hfield, rfl⟩ := List.mem_map.mp hline
    obtain ⟨_, hname, hvalue⟩ := h field hfield
    exact ⟨by simp [hname, hvalue], by simp⟩
  have hlines := splitHead_lines hline body
  have hread : (fields.map fun field => field.1 ++ 58 :: 32 :: field.2).mapM readField =
      some fields := by
    have hfields : ∀ field ∈ fields,
        (readField ∘ fun field => field.1 ++ 58 :: 32 :: field.2) field = some (id field) :=
      fun field hfield => readField_eq (h field hfield).1
    rw [List.mapM_map, mapM_some hfields, List.map_id]
  rw [List.flatMap_cons, List.flatMap_map] at hlines
  simp only [List.append_assoc, List.cons_append, List.nil_append] at hlines ⊢
  simp only [readMessage, hlines, Option.bind_eq_bind, Option.bind_some, hread]
  rfl

end Kernway
