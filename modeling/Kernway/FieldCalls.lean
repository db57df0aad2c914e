import Kernway.Fields
import Kernway.StrSlice
import Mathlib.Algebra.Ring.Nat

namespace Kernway

inductive FieldCall
  | insert (name value : Text)
  | append (name value : Text)

namespace FieldCall

def name : FieldCall → Text
  | insert name _ => name
  | append name _ => name

def value : FieldCall → Text
  | insert _ value => value
  | append _ value => value

/-- The bytes that a call adds to the buffer. -/
def size (c : FieldCall) : Nat := (encodeUtf8 c.name).length + (encodeUtf8 c.value).length

def pair (ci : Bool) (c : FieldCall) : Text × Text := (storedText ci c.name, c.value)

/-- Whether a call takes the pairs of a name away. -/
def replaces (ci : Bool) (name : Text) : FieldCall → Bool
  | insert new _ => storedText ci new == storedText ci name
  | append _ _ => false

end FieldCall

/-- Headers ignore ASCII case in names, query parameters do not. -/
def SameName (ci : Bool) (a b : Text) : Prop :=
  if ci then toAsciiLowercase a = toAsciiLowercase b else a = b

instance (ci : Bool) (a b : Text) : Decidable (SameName ci a b) :=
  inferInstanceAs (Decidable (if ci then _ else _))

/-- The pairs of the calls, without those that a later insertion replaces. -/
def remaining (ci : Bool) : List FieldCall → List (Text × Text)
  | [] => []
  | c :: calls =>
    if calls.any (FieldCall.replaces ci c.name) then remaining ci calls
    else c.pair ci :: remaining ci calls

def totalSize (calls : List FieldCall) : Nat := (calls.map FieldCall.size).sum

namespace Fields

variable {ci : Bool}

def call (f : Fields ci) : FieldCall → Option (Fields ci)
  | .insert name value => f.insert name value
  | .append name value => f.append name value

/-- The fields after these calls, `none` where one of them panics. -/
def run (ci : Bool) (calls : List FieldCall) : Option (Fields ci) := calls.foldlM call {}

/-- A range that can be sliced: it is in the buffer, from one character to another, and its bytes
are read as a text. -/
structure InBuffer (f : Fields ci) (r : Span) : Prop where
  ordered : r.start ≤ r.stop
  inside : r.stop ≤ f.buf.length
  boundaries : ∃ text, f.buf = encodeUtf8 text ∧ isCharBoundary text r.start = true ∧
    isCharBoundary text r.stop = true
  reads : decodeUtf8 (bytesAt f.buf r) = some (f.slice r)

/-- The range of a piece of a text. -/
def Cut (text : Text) (r : Span) (piece : Text) : Prop :=
  ∃ rest, StandsAt text r.start (piece ++ rest) ∧
    r.stop = r.start + (encodeUtf8 piece).length

/-- The buffer is a text, and the entries are the ranges of the pairs in it. -/
structure Written (f : Fields ci) (text : Text) (ps : List (Text × Text)) : Prop where
  buf : f.buf = encodeUtf8 text
  entries : List.Forall₂ (fun e p => Cut text e.name p.1 ∧ Cut text e.value p.2) f.entries ps

section Cuts

variable {text piece : Text} {r : Span}

theorem Cut.append (h : Cut text r piece) (more : Text) : Cut (text ++ more) r piece := by
  obtain ⟨rest, ⟨done, htext, hstart⟩, hstop⟩ := h
  refine ⟨rest ++ more, ⟨done, ?_, hstart⟩, hstop⟩
  rw [htext, List.append_assoc, List.append_assoc]

theorem Cut.stop_le (h : Cut text r piece) : r.stop ≤ (encodeUtf8 text).length := by
  obtain ⟨rest, hat, hstop⟩ := h
  have hlen := hat.append.length
  omega

theorem Cut.bytes (h : Cut text r piece) : bytesAt (encodeUtf8 text) r = encodeUtf8 piece := by
  obtain ⟨rest, hat, hstop⟩ := h
  rw [bytesAt, List.drop_take, hat.drop, hstop, Nat.add_sub_cancel_left, encodeUtf8_append,
    List.take_left]

theorem Cut.inBuffer {f : Fields ci} (hbuf : f.buf = encodeUtf8 text) (h : Cut text r piece) :
    f.InBuffer r := by
  obtain ⟨rest, hat, hstop⟩ := id h
  refine ⟨by omega, by rw [hbuf]; exact h.stop_le, ⟨text, hbuf, hat.isCharBoundary, ?_⟩, ?_⟩
  · rw [hstop]
    exact hat.append.isCharBoundary
  · rw [slice, hbuf, h.bytes, decodeUtf8_encodeUtf8]
    rfl

/-- The ranges of two pieces that are written behind a text. -/
theorem cut_behind (text name value : Text) :
    Cut (text ++ (name ++ value))
        ⟨(encodeUtf8 text).length, (encodeUtf8 text).length + (encodeUtf8 name).length⟩ name ∧
      Cut (text ++ (name ++ value))
        ⟨(encodeUtf8 text).length + (encodeUtf8 name).length,
          (encodeUtf8 text).length + (encodeUtf8 name).length + (encodeUtf8 value).length⟩ value := by
  have hat : StandsAt (text ++ (name ++ value)) (encodeUtf8 text).length (name ++ value) :=
    ⟨text, rfl, rfl⟩
  refine ⟨⟨value, hat, rfl⟩, ⟨[], ?_, rfl⟩⟩
  rw [List.append_nil]
  exact hat.append

end Cuts

section Calls

variable {f : Fields ci} {text : Text} {ps : List (Text × Text)}

theorem Written.holds (h : f.Written text ps) : f.Holds ps := by
  refine h.entries.imp fun e p hcut => ?_
  rw [h.buf]
  exact ⟨hcut.1.stop_le, hcut.2.stop_le, hcut.1.bytes, hcut.2.bytes⟩

theorem exists_of_forall₂ {α β : Type} {R : α → β → Prop} {as : List α} {bs : List β}
    (h : List.Forall₂ R as bs) {a : α} (ha : a ∈ as) : ∃ b, R a b := by
  induction h with
  | nil => cases ha
  | cons hab _ ih =>
    rcases List.mem_cons.mp ha with rfl | ha
    · exact ⟨_, hab⟩
    · exact ih ha

theorem Written.inBuffer (h : f.Written text ps) {e : Entry} (he : e ∈ f.entries) :
    f.InBuffer e.name ∧ f.InBuffer e.value := by
  obtain ⟨p, hname, hvalue⟩ := exists_of_forall₂ h.entries he
  exact ⟨hname.inBuffer h.buf, hvalue.inBuffer h.buf⟩

theorem length_storedText (ci : Bool) (name : Text) :
    (encodeUtf8 (storedText ci name)).length = (encodeUtf8 name).length := by
  rw [← storedName_encodeUtf8]
  cases ci with
  | false => rfl
  | true => exact List.length_map ..

theorem Written.push (h : f.Written text ps) (name value : Text)
    (hroom : f.buf.length + (encodeUtf8 name).length + (encodeUtf8 value).length < 2 ^ 32) :
    ∃ g, f.push name value = some g ∧
      g.Written (text ++ (storedText ci name ++ value)) (ps ++ [(storedText ci name, value)]) := by
  have hlen := length_storedText ci name
  have hoffset : ∀ n, n < 2 ^ 32 → offset n = some n := fun n hn => if_pos hn
  refine ⟨⟨f.buf ++ encodeUtf8 (storedText ci name) ++ encodeUtf8 value, f.entries ++
      [⟨⟨f.buf.length, f.buf.length + (encodeUtf8 (storedText ci name)).length⟩,
        ⟨f.buf.length + (encodeUtf8 (storedText ci name)).length,
          f.buf.length + (encodeUtf8 (storedText ci name)).length + (encodeUtf8 value).length⟩⟩]⟩,
    ?_, ?_, ?_⟩
  · unfold Fields.push
    rw [storedName_encodeUtf8, hoffset _ (by omega)]
    simp only [List.length_append, Option.bind_eq_bind, Option.bind_some]
    rw [hoffset _ (by omega), Option.bind_some, hoffset _ (by omega), Option.bind_some]
    rfl
  · dsimp only
    rw [h.buf, encodeUtf8_append, encodeUtf8_append, List.append_assoc]
  · refine List.rel_append ?_ ?_
    · exact h.entries.imp fun e p hcut => ⟨hcut.1.append _, hcut.2.append _⟩
    · rw [h.buf]
      exact .cons (cut_behind text (storedText ci name) value) .nil

/-- What is left after one more call. -/
theorem remaining_append (ci : Bool) (calls : List FieldCall) (c : FieldCall) :
    remaining ci (calls ++ [c]) =
      (remaining ci calls).filter (fun p => !c.replaces ci p.1) ++ [c.pair ci] := by
  induction calls with
  | nil => rfl
  | cons d calls ih =>
    have hd : c.replaces ci (d.pair ci).1 = c.replaces ci d.name := by
      cases c with
      | insert name value =>
        show (storedText ci name == storedText ci (storedText ci d.name)) = _
        rw [storedText_storedText]
        rfl
      | append name value => rfl
    rw [List.cons_append, remaining, List.any_append, List.any_cons, List.any_nil, Bool.or_false, ih,
      remaining]
    by_cases hold : calls.any (FieldCall.replaces ci d.name) = true
    · rw [hold, Bool.true_or, if_pos rfl, if_pos rfl]
    · rw [Bool.eq_false_iff.mpr hold, Bool.false_or, if_neg Bool.false_ne_true]
      cases hnew : c.replaces ci d.name with
      | true =>
        rw [if_pos rfl, List.filter_cons_of_neg]
        rw [hd, hnew]
        decide
      | false =>
        rw [if_neg Bool.false_ne_true, List.filter_cons_of_pos, List.cons_append]
        rw [hd, hnew]
        rfl

/-- An insertion drops the entries of the name, before it writes. -/
theorem Written.filter (h : f.Written text ps) (name : Text) :
    ({ f with entries := f.entries.filter fun e => !nameMatches ci f.buf e name } :
      Fields ci).Written text
        (ps.filter fun p => !(storedText ci name == storedText ci p.1)) where
  buf := h.buf
  entries := by
    have hpair : List.Forall₂ (fun e p => (Cut text e.name p.1 ∧ Cut text e.value p.2) ∧
        nameMatches ci f.buf e name = (storedText ci name == storedText ci p.1)) f.entries ps := by
      have hboth := h.entries
      refine hboth.imp fun e p hcut => ⟨hcut, ?_⟩
      rw [h.buf, EntryHolds.nameMatches
        ⟨hcut.1.stop_le, hcut.2.stop_le, hcut.1.bytes, hcut.2.bytes⟩, BEq.comm]
    clear h
    show List.Forall₂ _ (f.entries.filter _) _
    generalize f.entries = es at hpair
    induction hpair with
    | nil => exact .nil
    | @cons e p es ps hep _ ih =>
      rw [List.filter_cons, List.filter_cons, hep.2]
      split
      next => exact .cons hep.1 ih
      next => exact ih

end Calls

section Runs

/-- The buffer after the calls. -/
def written (ci : Bool) (calls : List FieldCall) : Text :=
  calls.flatMap fun c => storedText ci c.name ++ c.value

theorem length_written (ci : Bool) (calls : List FieldCall) :
    (encodeUtf8 (written ci calls)).length = totalSize calls := by
  induction calls with
  | nil => rfl
  | cons c calls ih =>
    have hcons : written ci (c :: calls) = (storedText ci c.name ++ c.value) ++ written ci calls :=
      List.flatMap_cons
    have htotal : totalSize (c :: calls) = c.size + totalSize calls := by
      rw [totalSize, List.map_cons, List.sum_cons]
      rfl
    rw [hcons, encodeUtf8_append, encodeUtf8_append, List.length_append, List.length_append, ih, htotal,
      length_storedText, FieldCall.size]

theorem Written.call {f : Fields ci} {text : Text} {ps : List (Text × Text)} (h : f.Written text ps)
    (c : FieldCall) (hroom : f.buf.length + c.size < 2 ^ 32) :
    ∃ g, f.call c = some g ∧ g.Written (text ++ (storedText ci c.name ++ c.value))
      (ps.filter (fun p => !c.replaces ci p.1) ++ [c.pair ci]) := by
  have hroom' : f.buf.length + (encodeUtf8 c.name).length + (encodeUtf8 c.value).length < 2 ^ 32 := by
    rw [Nat.add_assoc]
    exact hroom
  cases c with
  | insert name value => exact (h.filter name).push name value hroom'
  | append name value =>
    have hall : ps.filter (fun p => !(FieldCall.append name value).replaces ci p.1) = ps :=
      List.filter_eq_self.mpr fun p _ => rfl
    rw [hall]
    exact h.push name value hroom'

theorem run_written (ci : Bool) (calls : List FieldCall) (h : totalSize calls < 2 ^ 32) :
    ∃ f, run ci calls = some f ∧ f.Written (written ci calls) (remaining ci calls) := by
  induction calls using List.reverseRecOn with
  | nil => exact ⟨{}, rfl, rfl, .nil⟩
  | append_singleton calls c ih =>
    have htotal : totalSize (calls ++ [c]) = totalSize calls + c.size := by
      rw [totalSize, List.map_append, List.sum_append, List.map_singleton, List.sum_singleton]
      rfl
    obtain ⟨f, hrun, hf⟩ := ih (by omega)
    have hbuf : f.buf.length = totalSize calls := by rw [hf.buf, length_written]
    obtain ⟨g, hcall, hg⟩ := hf.call c (by omega)
    refine ⟨g, ?_, ?_⟩
    · rw [run, List.foldlM_append]
      rw [run] at hrun
      rw [hrun]
      show (List.foldlM Fields.call f [c]) = _
      rw [List.foldlM_cons, hcall]
      rfl
    · rw [remaining_append]
      have htext : written ci (calls ++ [c]) =
          written ci calls ++ (storedText ci c.name ++ c.value) := by
        rw [written, List.flatMap_append, List.flatMap_singleton]
        rfl
      rwa [htext]

theorem sameName_iff (ci : Bool) (a b : Text) :
    SameName ci a b ↔ (storedText ci a == storedText ci b) = true := by
  rw [beq_iff_eq]
  cases ci with
  | false => exact Iff.rfl
  | true => exact Iff.rfl

/-- The fields are the list of pairs that the calls leave, and every range of an entry can be
sliced. -/
theorem run_refines (ci : Bool) (calls : List FieldCall) (h : totalSize calls < 2 ^ 32) :
    ∃ f : Fields ci, run ci calls = some f ∧ f.iter = remaining ci calls ∧
      (∀ name, f.get name =
        ((remaining ci calls).filter (SameName ci ·.1 name)).getLast?.map Prod.snd) ∧
      ∀ e ∈ f.entries, f.InBuffer e.name ∧ f.InBuffer e.value := by
  obtain ⟨f, hrun, hf⟩ := run_written ci calls h
  refine ⟨f, hrun, iter_of_holds hf.holds, fun name => ?_, fun e he => hf.inBuffer he⟩
  rw [get_of_holds hf.holds, List.getLast?_eq_head?_reverse, ← List.filter_reverse, List.head?_filter]
  congr 2
  funext p
  rw [Bool.eq_iff_iff, decide_eq_true_iff, sameName_iff]

theorem run_refines_headers :
    totalSize [.append "A".toList "1".toList, .insert "a".toList "2".toList] < 2 ^ 32 ∧
      ∃ f : Fields true, run true [.append "A".toList "1".toList, .insert "a".toList "2".toList] =
          some f ∧
        f.iter = [("a".toList, "2".toList)] := by
  have hsize : totalSize [.append "A".toList "1".toList, .insert "a".toList "2".toList] < 2 ^ 32 := by
    decide
  obtain ⟨f, hrun, hiter, _⟩ := run_refines true _ hsize
  exact ⟨hsize, f, hrun, hiter.trans (by decide)⟩

end Runs

end Fields

end Kernway
