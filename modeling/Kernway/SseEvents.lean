import Kernway.EventStream
import Kernway.Token

namespace Kernway

structure SseEvent where
  id : Option Text
  event : Option Text
  data : Text
  retry : Option UInt64

namespace SseEvent

/-- A line of the wire format: the name of a field, and its value. -/
def fieldLine (name value : Text) : Text := name ++ [':', ' '] ++ value ++ ['\n']

def toWire (e : SseEvent) : Text :=
  (match e.id with
    | some id => fieldLine "id".toList id
    | none => []) ++
  (match e.event with
    | some event => fieldLine "event".toList event
    | none => []) ++
  (lines e.data).flatMap (fieldLine "data".toList) ++
  (if e.data = [] then fieldLine "data".toList [] else []) ++
  (match e.retry with
    | some retry => fieldLine "retry".toList (decimal retry)
    | none => []) ++
  ['\n']

end SseEvent

structure SseStream where
  events : List SseEvent

def SseStream.toBytes (s : SseStream) : Bytes := encodeUtf8 (s.events.flatMap SseEvent.toWire)

open EventStream

/-- The messages that the events stand for, behind an event with the given id. -/
def sentMessages (lastId : Text) : List SseEvent → List Message
  | [] => []
  | e :: events =>
    let id := e.id.getD lastId
    ⟨e.data, e.event.getD "message".toList, id⟩ :: sentMessages id events

/-- What the lines of a stream can carry of an event, but for the end of its data. -/
structure SseEvent.Fits (e : SseEvent) : Prop where
  id : ∀ id ∈ e.id, Unbroken id ∧ '\x00' ∉ id
  event : ∀ event ∈ e.event, Unbroken event ∧ event ≠ []
  data : '\r' ∉ e.data

theorem fits_of_sent {events : List SseEvent} {lastId : Text}
    (h : ∀ m ∈ sentMessages lastId events, m.Clean) : ∀ e ∈ events, e.Fits := by
  induction events generalizing lastId with
  | nil => simp
  | cons e events ih =>
    rw [sentMessages, List.forall_mem_cons] at h
    obtain ⟨hclean, hrest⟩ := h
    refine List.forall_mem_cons.mpr ⟨?_, ih hrest⟩
    constructor
    · intro id hid
      have hlast := hclean.lastEventId
      rw [hid] at hlast
      exact hlast
    · intro event hevent
      have htype := hclean.event
      rw [hevent] at htype
      exact htype
    · exact hclean.data

theorem stripSuffix_append {d : Char} {s t : Text} (ht : t ≠ []) :
    stripSuffix d (s ++ t) = s ++ stripSuffix d t := by
  unfold stripSuffix
  rw [List.getLast?_append_of_ne_nil _ ht, List.dropLast_append_of_ne_nil ht]
  split
  next => rfl
  next => rfl

/-- The lines of data without `\r` hold all of it but a last line end. -/
theorem lines_flatMap {s : Text} (h : '\r' ∉ s) :
    (lines s).flatMap (· ++ ['\n']) = if s = [] then [] else stripSuffix '\n' s ++ ['\n'] := by
  induction hn : s.length using Nat.strongRecOn generalizing s with
  | _ n ih =>
    subst hn
    rw [lines]
    split
    next hcut =>
      have hfree := cutAt_eq_none_iff.mp hcut
      by_cases hs : s = []
      · rw [if_pos hs, if_pos hs]
        rfl
      · have hlast : s.getLast? ≠ some '\n' := fun hlast =>
          hfree (List.mem_of_getLast? hlast)
        rw [if_neg hs, if_neg hs, stripSuffix, if_neg hlast, List.flatMap_singleton]
    next line rest hcut =>
      obtain ⟨rfl, hline⟩ := cutAt_eq_some_iff.mp hcut
      simp only [List.mem_append, List.mem_cons, not_or] at h
      have hkept : stripSuffix '\r' line = line := by
        apply if_neg
        intro hlast
        exact h.1 (List.mem_of_getLast? hlast)
      have hshorter : rest.length < (line ++ '\n' :: rest).length := by
        simp only [List.length_append, List.length_cons]
        omega
      have hrest := ih rest.length hshorter h.2.2 rfl
      have hne : line ++ '\n' :: rest ≠ [] := List.append_ne_nil_of_right_ne_nil _ (by simp)
      rw [List.flatMap_cons, hkept, hrest, if_neg hne]
      by_cases hempty : rest = []
      · subst hempty
        rw [if_pos rfl, List.append_nil, stripSuffix, if_pos (by simp), List.dropLast_concat]
      · have hsplit : line ++ '\n' :: rest = (line ++ ['\n']) ++ rest := by simp
        rw [if_neg hempty, hsplit, stripSuffix_append hempty]
        simp only [List.append_assoc]

theorem messages_fieldLine (b : Buffers) {name value : Text} (hne : name ≠ [])
    (hname : Unbroken name) (hcolon : ':' ∉ name) (hvalue : Unbroken value) (rest : Text) :
    b.messages (linesFrom [] false (SseEvent.fieldLine name value ++ rest)) =
      (b.field name value).messages (linesFrom [] false rest) := by
  have hunbroken : Unbroken (name ++ [':', ' '] ++ value) :=
    (hname.append ⟨by decide, by decide⟩).append hvalue
  have hwire : SseEvent.fieldLine name value ++ rest =
      (name ++ [':', ' '] ++ value) ++ '\n' :: rest := by
    rw [SseEvent.fieldLine, List.append_assoc]
    rfl
  have hcut : cutAt ':' (name ++ [':', ' '] ++ value) = some (name, ' ' :: value) := by
    rw [List.append_assoc]
    exact cutAt_eq_some_iff.mpr ⟨rfl, hcolon⟩
  have hline : b.processLine (name ++ [':', ' '] ++ value) = (b.field name value, none) := by
    have hfull : name ++ [':', ' '] ++ value ≠ [] := by simp [hne]
    rw [Buffers.processLine, if_neg hfull, hcut]
    cases name with
    | nil => exact absurd rfl hne
    | cons c name => rfl
  rw [hwire, linesFrom_line hunbroken, Buffers.messages, List.nil_append, hline]
  rfl

theorem messages_dataLines (b : Buffers) {values : List Text} (h : ∀ v ∈ values, Unbroken v)
    (rest : Text) :
    b.messages (linesFrom [] false (values.flatMap (SseEvent.fieldLine "data".toList) ++ rest)) =
      { b with data := b.data ++ values.flatMap (· ++ ['\n']) }.messages
        (linesFrom [] false rest) := by
  induction values generalizing b with
  | nil => rw [List.flatMap_nil, List.flatMap_nil, List.append_nil]; rfl
  | cons value values ih =>
    rw [List.forall_mem_cons] at h
    rw [List.flatMap_cons, List.append_assoc, messages_fieldLine b (by decide)
      ⟨by decide, by decide⟩ (by decide) h.1, ih _ h.2, Buffers.field_data, List.flatMap_cons]
    simp only [List.append_assoc]

theorem unbroken_decimal (n : UInt64) : Unbroken (decimal n) := by
  constructor
  · exact notMem_toDigits (by decide) n.toNat
  · exact notMem_toDigits (by decide) n.toNat

theorem unbroken_of_lines {s : Text} (h : '\r' ∉ s) : ∀ line ∈ lines s, Unbroken line := by
  induction hn : s.length using Nat.strongRecOn generalizing s with
  | _ n ih =>
    subst hn
    rw [lines]
    split
    next hcut =>
      have hfree := cutAt_eq_none_iff.mp hcut
      split
      next => simp
      next =>
        intro line hline
        rw [List.mem_singleton.mp hline]
        exact ⟨hfree, h⟩
    next line rest hcut =>
      obtain ⟨rfl, hline⟩ := cutAt_eq_some_iff.mp hcut
      simp only [List.mem_append, List.mem_cons, not_or] at h
      have hshorter : rest.length < (line ++ '\n' :: rest).length := by
        simp only [List.length_append, List.length_cons]
        omega
      refine List.forall_mem_cons.mpr ⟨?_, ih rest.length hshorter h.2.2 rfl⟩
      have hkept : stripSuffix '\r' line = line := by
        apply if_neg
        intro hlast
        exact h.1 (List.mem_of_getLast? hlast)
      rw [hkept]
      exact ⟨hline, h.1⟩

theorem messages_blank (b : Buffers) (rest : Text) (hdata : b.data ≠ []) :
    b.messages (linesFrom [] false ('\n' :: rest)) =
      ⟨stripSuffix '\n' b.data, if b.event = [] then "message".toList else b.event, b.lastId⟩ ::
        Buffers.messages ⟨[], [], b.lastId⟩ (linesFrom [] false rest) := by
  rw [linesFrom, if_pos rfl]
  simp only [Bool.false_eq_true, if_false, Buffers.messages, Buffers.processLine, if_true,
    Buffers.dispatch, if_neg hdata]
  rfl

theorem messages_id (b : Buffers) {e : SseEvent} (he : e.Fits) (rest : Text) :
    b.messages (linesFrom [] false ((match e.id with
      | some id => SseEvent.fieldLine "id".toList id
      | none => []) ++ rest)) =
      { b with lastId := e.id.getD b.lastId }.messages (linesFrom [] false rest) := by
  cases hid : e.id with
  | none => rfl
  | some id =>
    obtain ⟨hunbroken, hnul⟩ := he.id id hid
    dsimp only
    rw [messages_fieldLine b (by decide) ⟨by decide, by decide⟩ (by decide) hunbroken,
      Buffers.field_id b hnul]
    rfl

theorem messages_event (b : Buffers) {e : SseEvent} (he : e.Fits) (hb : b.event = [])
    (rest : Text) :
    b.messages (linesFrom [] false ((match e.event with
      | some event => SseEvent.fieldLine "event".toList event
      | none => []) ++ rest)) =
      { b with event := e.event.getD [] }.messages (linesFrom [] false rest) := by
  cases hevent : e.event with
  | none =>
    obtain ⟨data, event, lastId⟩ := b
    dsimp only at hb
    rw [hb]
    rfl
  | some event =>
    dsimp only
    rw [messages_fieldLine b (by decide) ⟨by decide, by decide⟩ (by decide)
      (he.event event hevent).1, Buffers.field_event]
    rfl

theorem messages_data (b : Buffers) {e : SseEvent} (he : e.Fits) (hb : b.data = [])
    (rest : Text) :
    b.messages (linesFrom [] false ((lines e.data).flatMap (SseEvent.fieldLine "data".toList) ++
      (if e.data = [] then SseEvent.fieldLine "data".toList [] else []) ++ rest)) =
      { b with data := stripSuffix '\n' e.data ++ ['\n'] }.messages (linesFrom [] false rest) := by
  rw [List.append_assoc, messages_dataLines b (unbroken_of_lines he.data), lines_flatMap he.data, hb]
  by_cases hempty : e.data = []
  · rw [if_pos hempty, if_pos hempty, messages_fieldLine _ (by decide) ⟨by decide, by decide⟩
      (by decide) ⟨List.not_mem_nil, List.not_mem_nil⟩, Buffers.field_data, hempty]
    rfl
  · rw [if_neg hempty, if_neg hempty]
    rfl

theorem messages_retry (b : Buffers) (e : SseEvent) (rest : Text) :
    b.messages (linesFrom [] false ((match e.retry with
      | some retry => SseEvent.fieldLine "retry".toList (decimal retry)
      | none => []) ++ rest)) = b.messages (linesFrom [] false rest) := by
  cases e.retry with
  | none => rfl
  | some retry =>
    dsimp only
    rw [messages_fieldLine b (by decide) ⟨by decide, by decide⟩ (by decide)
      (unbroken_decimal retry), Buffers.field_retry]

/-- What an event dispatches: its data without a last line end. -/
theorem messages_toWire {e : SseEvent} (he : e.Fits) (lastId rest : Text) :
    Buffers.messages ⟨[], [], lastId⟩ (linesFrom [] false (e.toWire ++ rest)) =
      ⟨stripSuffix '\n' e.data, e.event.getD "message".toList, e.id.getD lastId⟩ ::
        Buffers.messages ⟨[], [], e.id.getD lastId⟩ (linesFrom [] false rest) := by
  have htype : (if e.event.getD [] = [] then "message".toList else e.event.getD []) =
      e.event.getD "message".toList := by
    cases hevent : e.event with
    | none => rfl
    | some event => exact if_neg (he.event event hevent).2
  have hdata := messages_data ⟨[], e.event.getD [], e.id.getD lastId⟩ he rfl
  unfold SseEvent.toWire
  rw [List.append_assoc, List.append_assoc, List.append_assoc, List.append_assoc,
    List.append_assoc, messages_id _ he, messages_event _ he rfl]
  rw [← List.append_assoc (List.flatMap _ _), hdata, messages_retry, List.singleton_append,
    messages_blank _ _ (by simp)]
  dsimp only
  rw [htype, stripSuffix, if_pos (by simp), List.dropLast_concat]

/-- What a list of events dispatches, behind one with the given id. -/
def shownMessages (lastId : Text) (events : List SseEvent) : List Message :=
  sentMessages lastId (events.map fun e => { e with data := stripSuffix '\n' e.data })

theorem messages_events {events : List SseEvent} (h : ∀ e ∈ events, e.Fits) (lastId : Text) :
    Buffers.messages ⟨[], [], lastId⟩ (linesFrom [] false (events.flatMap SseEvent.toWire)) =
      shownMessages lastId events := by
  induction events generalizing lastId with
  | nil => rfl
  | cons e events ih =>
    rw [List.forall_mem_cons] at h
    rw [List.flatMap_cons, messages_toWire h.1, ih h.2]
    rfl

theorem stripBom_eq {s : Text} (h : s.head? ≠ some '\uFEFF') : stripBom s = s := by
  unfold stripBom
  split
  next => exact absurd rfl h
  next => rfl

/-- The wire format begins with the name of a field, or with a line end. -/
theorem head_toWire (e : SseEvent) (rest : Text) :
    (e.toWire ++ rest).head? ≠ some '\uFEFF' := by
  unfold SseEvent.toWire
  cases e.id with
  | some id => exact ne_of_beq_false rfl
  | none =>
    cases e.event with
    | some event => exact ne_of_beq_false rfl
    | none =>
      cases lines e.data with
      | cons line lines => exact ne_of_beq_false rfl
      | nil =>
        by_cases hempty : e.data = []
        · rw [if_pos hempty]
          exact ne_of_beq_false rfl
        · rw [if_neg hempty]
          cases e.retry with
          | some retry => exact ne_of_beq_false rfl
          | none => exact ne_of_beq_false rfl

theorem stripBom_toWire (events : List SseEvent) :
    stripBom (events.flatMap SseEvent.toWire) = events.flatMap SseEvent.toWire := by
  apply stripBom_eq
  cases events with
  | nil => simp
  | cons e events => exact head_toWire e _

theorem interpret_toBytes {events : List SseEvent} (h : ∀ e ∈ events, e.Fits) :
    interpret (SseStream.toBytes ⟨events⟩) = shownMessages [] events := by
  rw [interpret, SseStream.toBytes, decodeUtf8Lossy_encodeUtf8, stripBom_toWire, messages_events h]

theorem shown_eq_sent_iff {events : List SseEvent} {lastId : Text} :
    shownMessages lastId events = sentMessages lastId events ↔
      ∀ e ∈ events, e.data.getLast? ≠ some '\n' := by
  induction events generalizing lastId with
  | nil => simp [shownMessages, sentMessages]
  | cons e events ih =>
    have hdata : stripSuffix '\n' e.data = e.data ↔ e.data.getLast? ≠ some '\n' := by
      unfold stripSuffix
      split
      next hlast =>
        have hne : e.data ≠ [] := by
          intro hempty
          rw [hempty] at hlast
          cases hlast
        have hpos := List.length_pos_iff.mpr hne
        constructor
        · intro h
          have hlen := congrArg List.length h
          rw [List.length_dropLast] at hlen
          omega
        · intro h
          exact absurd hlast h
      next hlast => exact iff_of_true rfl hlast
    rw [List.forall_mem_cons, ← hdata, ← @ih (e.id.getD lastId)]
    simp only [shownMessages, List.map_cons, sentMessages, List.cons.injEq, Message.mk.injEq,
      and_true]

/-- The events arrive as sent exactly where the ids, types and data fit their lines. -/
theorem interpret_eq_sent_iff (s : SseStream) :
    interpret s.toBytes = sentMessages [] s.events ↔
      ∀ e ∈ s.events, e.Fits ∧ e.data.getLast? ≠ some '\n' := by
  constructor
  · intro h
    have hfits := fits_of_sent (h ▸ interpret_clean s.toBytes)
    have hshown := (interpret_toBytes hfits).symm.trans h
    have hlast := shown_eq_sent_iff.mp hshown
    exact fun e he => ⟨hfits e he, hlast e he⟩
  · intro h
    have hfits : ∀ e ∈ s.events, e.Fits := fun e he => (h e he).1
    have hlast : ∀ e ∈ s.events, e.data.getLast? ≠ some '\n' := fun e he => (h e he).2
    exact (interpret_toBytes hfits).trans (shown_eq_sent_iff.mpr hlast)

/-- The last line end of the data is lost. -/
theorem not_interpret_eq_sent :
    ¬ ∀ s : SseStream, interpret s.toBytes = sentMessages [] s.events := by
  intro h
  have hfits : ∀ e ∈ [(⟨none, none, "a\n".toList, none⟩ : SseEvent)], e.Fits := by
    intro e he
    rw [List.mem_singleton.mp he]
    exact ⟨by simp, by simp, by decide⟩
  have hshown := (interpret_toBytes hfits).symm.trans (h ⟨_⟩)
  exact shown_eq_sent_iff.mp hshown _ (List.mem_singleton.mpr rfl) (by decide)

end Kernway
