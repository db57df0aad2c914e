import Kernway.Str
import Kernway.Utf8Lossy

namespace Kernway.EventStream

/-- The lines of a stream, ended by `\n`, `\r` or both: behind the beginning of one, and behind a
`\r` or not. What no line end follows is no line. -/
def linesFrom (line : Text) (behindCr : Bool) : Text → List Text
  | [] => []
  | c :: rest =>
    if c = '\n' then
      if behindCr then linesFrom [] false rest else line :: linesFrom [] false rest
    else if c = '\r' then line :: linesFrom [] true rest
    else linesFrom (line ++ [c]) false rest

/-- The data buffer, the event type buffer and the last event id buffer. -/
structure Buffers where
  data : Text
  event : Text
  lastId : Text
  deriving DecidableEq

structure Message where
  data : Text
  event : Text
  lastEventId : Text
  deriving DecidableEq

namespace Buffers

/-- The fields that bear on events; `retry` sets the reconnection time. -/
def field (b : Buffers) (name value : Text) : Buffers :=
  if name = "event".toList then { b with event := value }
  else if name = "data".toList then { b with data := b.data ++ value ++ ['\n'] }
  else if name = "id".toList then if '\x00' ∈ value then b else { b with lastId := value }
  else b

theorem field_event (b : Buffers) (value : Text) :
    b.field "event".toList value = { b with event := value } := if_pos rfl

theorem field_data (b : Buffers) (value : Text) :
    b.field "data".toList value = { b with data := b.data ++ value ++ ['\n'] } := by
  rw [field, if_neg (by decide), if_pos rfl]

theorem field_id (b : Buffers) {value : Text} (h : '\x00' ∉ value) :
    b.field "id".toList value = { b with lastId := value } := by
  rw [field, if_neg (by decide), if_neg (by decide), if_pos rfl, if_neg h]

theorem field_retry (b : Buffers) (value : Text) : b.field "retry".toList value = b := by
  rw [field, if_neg (by decide), if_neg (by decide), if_neg (by decide)]

def dispatch (b : Buffers) : Buffers × Option Message :=
  if b.data = [] then ({ b with event := [] }, none)
  else
    let event := if b.event = [] then "message".toList else b.event
    (⟨[], [], b.lastId⟩, some ⟨stripSuffix '\n' b.data, event, b.lastId⟩)

/-- What stands behind the colon of a field, without one leading space. -/
def valueOf : Text → Text
  | ' ' :: value => value
  | value => value

def processLine (b : Buffers) (line : Text) : Buffers × Option Message :=
  if line = [] then b.dispatch
  else
    match cutAt ':' line with
    | some ([], _) => (b, none)
    | some (name, value) => (b.field name (valueOf value), none)
    | none => (b.field line [], none)

/-- The messages that the lines dispatch. What they leave in the buffers is discarded. -/
def messages (b : Buffers) : List Text → List Message
  | [] => []
  | line :: lines =>
    let (b', message) := b.processLine line
    message.toList ++ messages b' lines

end Buffers

def stripBom : Text → Text
  | '\uFEFF' :: s => s
  | s => s

/-- The messages of an event stream. -/
def interpret (bytes : Bytes) : List Message :=
  Buffers.messages ⟨[], [], []⟩ (linesFrom [] false (stripBom (decodeUtf8Lossy bytes)))

/-- The text has no line end in it. -/
def Unbroken (s : Text) : Prop := '\n' ∉ s ∧ '\r' ∉ s

theorem Unbroken.append {s t : Text} (hs : Unbroken s) (ht : Unbroken t) : Unbroken (s ++ t) := by
  simp only [Unbroken, List.mem_append, not_or] at hs ht ⊢
  exact ⟨⟨hs.1, ht.1⟩, hs.2, ht.2⟩

theorem linesFrom_unbroken {line s : Text} {cr : Bool} (hline : Unbroken line) :
    ∀ l ∈ linesFrom line cr s, Unbroken l := by
  have hnil : Unbroken [] := ⟨List.not_mem_nil, List.not_mem_nil⟩
  induction s generalizing line cr with
  | nil =>
    intro l hl
    cases hl
  | cons c s ih =>
    rw [linesFrom]
    split
    next =>
      split
      next => exact ih hnil
      next => exact List.forall_mem_cons.mpr ⟨hline, ih hnil⟩
    next hlf =>
      split
      next => exact List.forall_mem_cons.mpr ⟨hline, ih hnil⟩
      next hcr =>
        apply ih
        apply hline.append
        simp only [Unbroken, List.mem_singleton]
        exact ⟨Ne.symm hlf, Ne.symm hcr⟩

/-- A line ended by `\n`. -/
theorem linesFrom_line {line s : Text} (hs : Unbroken s) (rest : Text) :
    linesFrom line false (s ++ '\n' :: rest) = (line ++ s) :: linesFrom [] false rest := by
  induction s generalizing line with
  | nil =>
    rw [List.nil_append, linesFrom, if_pos rfl, List.append_nil]
    rfl
  | cons c s ih =>
    simp only [Unbroken, List.mem_cons, not_or] at hs
    rw [List.cons_append, linesFrom, if_neg (Ne.symm hs.1.1), if_neg (Ne.symm hs.2.1),
      ih ⟨hs.1.2, hs.2.2⟩, List.append_assoc]
    rfl

/-- What the buffers can hold. -/
structure Buffers.Clean (b : Buffers) : Prop where
  data : '\r' ∉ b.data
  event : Unbroken b.event
  lastId : Unbroken b.lastId ∧ '\x00' ∉ b.lastId

/-- What a message can carry. -/
structure Message.Clean (m : Message) : Prop where
  data : '\r' ∉ m.data
  event : Unbroken m.event ∧ m.event ≠ []
  lastEventId : Unbroken m.lastEventId ∧ '\x00' ∉ m.lastEventId

theorem Buffers.Clean.field {b : Buffers} (h : b.Clean) (name : Text) {value : Text}
    (hvalue : Unbroken value) : (b.field name value).Clean := by
  unfold Buffers.field
  split
  next => exact ⟨h.data, hvalue, h.lastId⟩
  next =>
    split
    next =>
      refine ⟨?_, h.event, h.lastId⟩
      simp [h.data, hvalue.2]
    next =>
      split
      next =>
        split
        next => exact h
        next hnul => exact ⟨h.data, h.event, hvalue, hnul⟩
      next => exact h

theorem Buffers.Clean.processLine {b : Buffers} (h : b.Clean) {line : Text}
    (hline : Unbroken line) :
    (b.processLine line).1.Clean ∧ ∀ m ∈ (b.processLine line).2, m.Clean := by
  have hnil : Unbroken [] := ⟨List.not_mem_nil, List.not_mem_nil⟩
  unfold Buffers.processLine
  split
  next =>
    unfold Buffers.dispatch
    split
    next => exact ⟨⟨h.data, hnil, h.lastId⟩, by simp⟩
    next =>
      refine ⟨⟨List.not_mem_nil, hnil, h.lastId⟩, ?_⟩
      intro m hm
      cases hm
      refine ⟨?_, ?_, h.lastId⟩
      · intro hmem
        apply h.data
        unfold stripSuffix at hmem
        split at hmem
        next => exact List.dropLast_subset _ hmem
        next => exact hmem
      · dsimp only
        split
        next => exact ⟨⟨by decide, by decide⟩, by decide⟩
        next hne => exact ⟨h.event, hne⟩
  next =>
    split
    next => exact ⟨h, by simp⟩
    next name value _ hcut =>
      obtain ⟨rfl, -⟩ := cutAt_eq_some_iff.mp hcut
      simp only [Unbroken, List.mem_append, List.mem_cons, not_or] at hline
      have hvalue : Unbroken (valueOf value) := by
        unfold valueOf
        split
        next value =>
          simp only [List.mem_cons, not_or] at hline
          exact ⟨hline.1.2.2.2, hline.2.2.2.2⟩
        next => exact ⟨hline.1.2.2, hline.2.2.2⟩
      exact ⟨h.field name hvalue, by simp⟩
    next => exact ⟨h.field line hnil, by simp⟩

theorem Buffers.Clean.messages {b : Buffers} (h : b.Clean) {lines : List Text}
    (hlines : ∀ l ∈ lines, Unbroken l) : ∀ m ∈ b.messages lines, m.Clean := by
  induction lines generalizing b with
  | nil =>
    intro m hm
    cases hm
  | cons line lines ih =>
    rw [List.forall_mem_cons] at hlines
    obtain ⟨hnext, hmessage⟩ := h.processLine hlines.1
    intro m hm
    rcases List.mem_append.mp hm with hm | hm
    · exact hmessage m (Option.mem_toList.mp hm)
    · exact ih hnext hlines.2 m hm

theorem interpret_clean (bytes : Bytes) : ∀ m ∈ interpret bytes, m.Clean := by
  have hnil : Unbroken [] := ⟨List.not_mem_nil, List.not_mem_nil⟩
  apply Buffers.Clean.messages
  · exact ⟨List.not_mem_nil, hnil, hnil, List.not_mem_nil⟩
  · exact linesFrom_unbroken hnil

end Kernway.EventStream
