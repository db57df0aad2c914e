import Kernway.Table
import Mathlib.Data.List.Induction
import Mathlib.Data.List.Sort
import Mathlib.Data.Prod.Lex
import Mathlib.Order.Bounds.Basic

namespace Kernway

abbrev TimerId := Nat

/-- A deadline is an instant, in nanoseconds. -/
structure TimerEntry where
  deadline : Nat
  id : TimerId
  deriving DecidableEq

/-- By time, then by id. -/
instance : LinearOrder TimerEntry :=
  LinearOrder.lift' (fun e : TimerEntry => toLex (e.deadline, e.id)) fun a b h => by
    cases a
    cases b
    cases h
    rfl

/-- The heap is in the order in which its entries are popped. -/
structure Timers (W : Type) where
  heap : List TimerEntry := []
  wakers : Table TimerId W := ∅
  nextId : TimerId := 0

variable {W : Type}

namespace Timers

variable (t : Timers W)

/-- The counter of the ids has 64 bits. -/
def allocate : TimerId × Timers W :=
  let id := (t.nextId + 1) % 18446744073709551616
  (id, { t with nextId := id })

def park (id : TimerId) (deadline : Nat) (waker : W) : Timers W :=
  let wakers := t.wakers.insert id waker
  match t.wakers.lookup id with
  | none => { t with wakers, heap := t.heap.orderedInsert (· ≤ ·) ⟨deadline, id⟩ }
  | some _ => { t with wakers }

def cancel (id : TimerId) : Timers W := { t with wakers := t.wakers.erase id }

/-- The heap from its first entry on that has a waker. -/
def popDead (wakers : Table TimerId W) : List TimerEntry → List TimerEntry
  | [] => []
  | entry :: heap =>
    if (wakers.lookup entry.id).isSome then entry :: heap else popDead wakers heap

def nextDeadline : Option Nat × Timers W :=
  let heap := popDead t.wakers t.heap
  (heap.head?.map TimerEntry.deadline, { t with heap })

def fireFrom (now : Nat) : List TimerEntry → Table TimerId W → List W →
    List TimerEntry × Table TimerId W × List W
  | [], wakers, out => ([], wakers, out)
  | entry :: heap, wakers, out =>
    if now < entry.deadline then (entry :: heap, wakers, out)
    else
      match wakers.lookup entry.id with
      | none => fireFrom now heap (wakers.erase entry.id) out
      | some waker => fireFrom now heap (wakers.erase entry.id) (out ++ [waker])

def fireExpired (now : Nat) (out : List W) : List W × Timers W :=
  let fired := fireFrom now t.heap t.wakers out
  (fired.2.2, { t with heap := fired.1, wakers := fired.2.1 })

end Timers

inductive TimerCall (W : Type)
  | allocate
  | park (id : TimerId) (deadline : Nat) (waker : W)
  | cancel (id : TimerId)
  | nextDeadline
  | fireExpired (now : Nat) (out : List W)

namespace TimerCall

def after (t : Timers W) : TimerCall W → Timers W
  | allocate => t.allocate.2
  | park id deadline waker => t.park id deadline waker
  | cancel id => t.cancel id
  | nextDeadline => t.nextDeadline.2
  | fireExpired now out => (t.fireExpired now out).2

end TimerCall

def Timers.run (calls : List (TimerCall W)) : Timers W := calls.foldl TimerCall.after {}

/-- The timers that are parked and neither cancelled nor fired, each with its deadline and its
latest waker, and the ids that have been cancelled. -/
structure LiveTimers (W : Type) where
  live : TimerId → Option (Nat × W) := fun _ => none
  cancelled : TimerId → Prop := fun _ => False

namespace LiveTimers

def after (timers : LiveTimers W) : TimerCall W → LiveTimers W
  | .allocate => timers
  | .park id deadline waker =>
    { timers with live := fun id' => if id' = id then some (deadline, waker) else timers.live id' }
  | .cancel id =>
    { live := fun id' => if id' = id then none else timers.live id'
      cancelled := fun id' => id' = id ∨ timers.cancelled id' }
  | .nextDeadline => timers
  | .fireExpired now _ =>
    { timers with live := fun id => (timers.live id).filter fun timer => decide (now < timer.1) }

def run (calls : List (TimerCall W)) : LiveTimers W := calls.foldl after {}

end LiveTimers

/-- Each id has one deadline, and is not parked after it has been cancelled. -/
structure LegalTimers (calls : List (TimerCall W)) : Prop where
  oneDeadline : ∀ id d w d' w', .park id d w ∈ calls → .park id d' w' ∈ calls → d = d'
  notCancelled : calls.Pairwise fun a b => ∀ id d w, a = .cancel id → b ≠ .park id d w

/-- What the timers answer: the least deadline of the live ones, and of those that are due the
wakers, by deadline. -/
structure Timers.Serves (t : Timers W) (timers : LiveTimers W) : Prop where
  next : ∀ deadline, t.nextDeadline.1 = some deadline ↔
    IsLeast {d | ∃ id waker, timers.live id = some (d, waker)} deadline
  none : t.nextDeadline.1 = none ↔ ∀ id, timers.live id = none
  fired : ∀ now out, ∃ due : List TimerEntry, due.Pairwise (· < ·) ∧
    (∀ e, e ∈ due ↔ ∃ waker, timers.live e.id = some (e.deadline, waker) ∧ e.deadline ≤ now) ∧
    (t.fireExpired now out).1 = out ++ due.filterMap fun e => (timers.live e.id).map Prod.snd

namespace Timers

/-- How the heap and the wakers stand to the live timers. -/
structure Holds (t : Timers W) (timers : LiveTimers W) : Prop where
  sorted : t.heap.Pairwise (· < ·)
  ids : (t.heap.map TimerEntry.id).Nodup
  waker : ∀ id, t.wakers.lookup id = (timers.live id).map Prod.snd
  entry : ∀ id deadline waker, timers.live id = some (deadline, waker) → ⟨deadline, id⟩ ∈ t.heap
  dead : ∀ e ∈ t.heap, timers.live e.id = none → timers.cancelled e.id

variable {t : Timers W} {timers : LiveTimers W}

theorem entry_le_iff {a b : TimerEntry} :
    a ≤ b ↔ a.deadline < b.deadline ∨ a.deadline = b.deadline ∧ a.id ≤ b.id :=
  Prod.Lex.toLex_le_toLex

theorem entry_deadline_le {a b : TimerEntry} (h : a ≤ b) : a.deadline ≤ b.deadline := by
  rcases entry_le_iff.1 h with hlt | ⟨heq, _⟩ <;> omega

namespace Holds

theorem isSome_iff (h : t.Holds timers) (id : TimerId) :
    (t.wakers.lookup id).isSome = true ↔ ∃ timer, timers.live id = some timer := by
  rw [h.waker, Option.isSome_map, Option.isSome_iff_exists]

/-- The entry of a live timer has its deadline. -/
theorem deadline_of_mem (h : t.Holds timers) {e : TimerEntry} (he : e ∈ t.heap) {timer : Nat × W}
    (hlive : timers.live e.id = some timer) : timer.1 = e.deadline := by
  have hmem := h.entry e.id timer.1 timer.2 hlive
  have heq := List.inj_on_of_nodup_map h.ids hmem he rfl
  exact congrArg TimerEntry.deadline heq

end Holds

theorem holds_start : ({} : Timers W).Holds {} where
  sorted := .nil
  ids := .nil
  waker _ := rfl
  entry _ _ _ h := nomatch h
  dead _ h := nomatch h

theorem holds_park (h : t.Holds timers) {id : TimerId} {deadline : Nat} (waker : W)
    (hcancel : ¬ timers.cancelled id)
    (hsame : ∀ timer, timers.live id = some timer → timer.1 = deadline) :
    (t.park id deadline waker).Holds (timers.after (.park id deadline waker)) := by
  have hwaker : ∀ id', (t.wakers.insert id waker).lookup id' =
      (if id' = id then some (deadline, waker) else timers.live id').map Prod.snd := by
    intro id'
    rw [Table.lookup_insert_eq, h.waker]
    split <;> rfl
  unfold park
  cases hlook : t.wakers.lookup id with
  | some old =>
    obtain ⟨timer, htimer⟩ := (h.isSome_iff id).mp (by rw [hlook]; rfl)
    have hmem : ⟨deadline, id⟩ ∈ t.heap := by
      rw [← hsame timer htimer]
      exact h.entry id timer.1 timer.2 htimer
    refine ⟨h.sorted, h.ids, hwaker, fun id' d w hlive => ?_, fun e he hnone => ?_⟩
    · by_cases hid : id' = id
      · have hsome : some (deadline, waker) = some (d, w) := by
          rw [← hlive]
          exact (if_pos hid).symm
        cases hsome
        rw [hid]
        exact hmem
      · exact h.entry id' d w (by rw [← hlive]; exact (if_neg hid).symm)
    · by_cases hid : e.id = id
      · have hsome : some (deadline, waker) = none := by
          rw [← hnone]
          exact (if_pos hid).symm
        cases hsome
      · exact h.dead e he (by rw [← hnone]; exact (if_neg hid).symm)
  | none =>
    have hnone : timers.live id = none := by
      rw [h.waker] at hlook
      exact Option.map_eq_none_iff.mp hlook
    have hfresh : id ∉ t.heap.map TimerEntry.id := by
      intro hmem
      obtain ⟨e, he, rfl⟩ := List.mem_map.mp hmem
      exact hcancel (h.dead e he hnone)
    have hmem : ∀ e, e ∈ t.heap.orderedInsert (· ≤ ·) ⟨deadline, id⟩ ↔
        e = ⟨deadline, id⟩ ∨ e ∈ t.heap := fun e => List.mem_orderedInsert _
    have hids : ((t.heap.orderedInsert (· ≤ ·) ⟨deadline, id⟩).map TimerEntry.id).Nodup := by
      have hperm := (List.perm_orderedInsert (· ≤ ·) ⟨deadline, id⟩ t.heap).map TimerEntry.id
      exact hperm.nodup_iff.mpr (List.nodup_cons.mpr ⟨hfresh, h.ids⟩)
    have hsorted : (t.heap.orderedInsert (· ≤ ·) ⟨deadline, id⟩).Pairwise (· < ·) := by
      have hle : (t.heap.orderedInsert (· ≤ ·) ⟨deadline, id⟩).Pairwise (· ≤ ·) :=
        (h.sorted.imp le_of_lt).orderedInsert _ _
      have hne : (t.heap.orderedInsert (· ≤ ·) ⟨deadline, id⟩).Nodup := hids.of_map _
      exact (hle.and hne).imp fun ⟨hle, hne⟩ => lt_of_le_of_ne hle hne
    refine ⟨hsorted, hids, hwaker, fun id' d w hlive => ?_, fun e he hdead => ?_⟩
    · rw [hmem]
      by_cases hid : id' = id
      · have hsome : some (deadline, waker) = some (d, w) := by
          rw [← hlive]
          exact (if_pos hid).symm
        cases hsome
        rw [hid]
        exact .inl rfl
      · exact .inr (h.entry id' d w (by rw [← hlive]; exact (if_neg hid).symm))
    · by_cases hid : e.id = id
      · have hsome : some (deadline, waker) = none := by
          rw [← hdead]
          exact (if_pos hid).symm
        cases hsome
      · rcases (hmem e).mp he with rfl | he
        · exact absurd rfl hid
        · exact h.dead e he (by rw [← hdead]; exact (if_neg hid).symm)

theorem holds_cancel (h : t.Holds timers) (id : TimerId) :
    (t.cancel id).Holds (timers.after (.cancel id)) := by
  refine ⟨h.sorted, h.ids, fun id' => ?_, fun id' d w hlive => ?_, fun e he hnone => ?_⟩
  · show (t.wakers.erase id).lookup id' = (if id' = id then none else timers.live id').map Prod.snd
    rw [Table.lookup_erase_eq, h.waker]
    split <;> rfl
  · have hlive' : (if id' = id then none else timers.live id') = some (d, w) := hlive
    split at hlive'
    next => cases hlive'
    next => exact h.entry id' d w hlive'
  · have hnone' : (if e.id = id then none else timers.live e.id) = none := hnone
    split at hnone'
    next hid => exact .inl hid
    next => exact .inr (h.dead e he hnone')

theorem popDead_suffix (wakers : Table TimerId W) (heap : List TimerEntry) :
    popDead wakers heap <:+ heap := by
  induction heap with
  | nil => exact List.suffix_refl _
  | cons e heap ih =>
    unfold popDead
    split
    next => exact List.suffix_refl _
    next => exact ih.trans (List.suffix_cons e heap)

/-- Only entries without a waker are popped. -/
theorem mem_popDead {wakers : Table TimerId W} {heap : List TimerEntry} {e : TimerEntry}
    (he : e ∈ heap) (hwaker : (wakers.lookup e.id).isSome) : e ∈ popDead wakers heap := by
  induction heap with
  | nil => cases he
  | cons e' heap ih =>
    unfold popDead
    split
    next => exact he
    next hdead =>
      rcases List.mem_cons.mp he with rfl | he
      · exact absurd hwaker hdead
      · exact ih he

theorem popDead_head {wakers : Table TimerId W} {heap : List TimerEntry} {e : TimerEntry}
    (he : (popDead wakers heap).head? = some e) : (wakers.lookup e.id).isSome := by
  induction heap with
  | nil => cases he
  | cons e' heap ih =>
    unfold popDead at he
    split at he
    next hlive =>
      cases he
      exact hlive
    next => exact ih he

theorem holds_nextDeadline (h : t.Holds timers) :
    t.nextDeadline.2.Holds (timers.after .nextDeadline) := by
  have hsub := (popDead_suffix t.wakers t.heap).sublist
  refine ⟨h.sorted.sublist hsub, h.ids.sublist (hsub.map _), h.waker, fun id d w hlive => ?_,
    fun e he hnone => h.dead e (hsub.subset he) hnone⟩
  exact mem_popDead (h.entry id d w hlive) ((h.isSome_iff id).mpr ⟨_, hlive⟩)

theorem next_iff (h : t.Holds timers) (deadline : Nat) :
    t.nextDeadline.1 = some deadline ↔
      IsLeast {d | ∃ id waker, timers.live id = some (d, waker)} deadline := by
  have hsub := (popDead_suffix t.wakers t.heap).sublist
  have hleast : ∀ e, (popDead t.wakers t.heap).head? = some e →
      IsLeast {d | ∃ id waker, timers.live id = some (d, waker)} e.deadline := by
    intro e he
    obtain ⟨rest, hrest⟩ := List.head?_eq_some_iff.mp he
    have hmem : e ∈ t.heap := hsub.subset (by rw [hrest]; exact List.mem_cons_self ..)
    obtain ⟨timer, htimer⟩ := (h.isSome_iff e.id).mp (popDead_head he)
    refine ⟨⟨e.id, timer.2, ?_⟩, ?_⟩
    · rw [htimer, ← h.deadline_of_mem hmem htimer]
    · rintro d ⟨id, waker, hlive⟩
      have hd : ⟨d, id⟩ ∈ popDead t.wakers t.heap :=
        mem_popDead (h.entry id d waker hlive) ((h.isSome_iff id).mpr ⟨_, hlive⟩)
      have hsorted := h.sorted.sublist hsub
      rw [hrest] at hd hsorted
      rcases List.mem_cons.mp hd with heq | hd
      · rw [← heq]
      · exact entry_deadline_le (le_of_lt (List.rel_of_pairwise_cons hsorted hd))
  constructor
  · intro hnext
    obtain ⟨e, he, rfl⟩ := Option.map_eq_some_iff.mp hnext
    exact hleast e he
  · intro hd
    obtain ⟨id, waker, hlive⟩ := hd.1
    have hmem : ⟨deadline, id⟩ ∈ popDead t.wakers t.heap :=
      mem_popDead (h.entry id deadline waker hlive) ((h.isSome_iff id).mpr ⟨_, hlive⟩)
    obtain ⟨e, rest, hrest⟩ := List.exists_cons_of_ne_nil (List.ne_nil_of_mem hmem)
    have he : (popDead t.wakers t.heap).head? = some e := by rw [hrest]; rfl
    rw [hd.unique (hleast e he)]
    show (popDead t.wakers t.heap).head?.map TimerEntry.deadline = _
    rw [he]
    rfl

/-- What the loop has fired, and what it leaves. -/
theorem fireFrom_eq (now : Nat) {heap : List TimerEntry} (hids : (heap.map TimerEntry.id).Nodup)
    (hsorted : heap.Pairwise (· < ·)) (wakers : Table TimerId W) (out : List W) :
    (fireFrom now heap wakers out).1 = heap.filter (fun e => decide (now < e.deadline)) ∧
      (∀ id, (fireFrom now heap wakers out).2.1.lookup id =
        if ∃ e ∈ heap, e.deadline ≤ now ∧ e.id = id then none else wakers.lookup id) ∧
      (fireFrom now heap wakers out).2.2 =
        out ++ (heap.filter fun e => decide (e.deadline ≤ now)).filterMap
          fun e => wakers.lookup e.id := by
  induction heap generalizing wakers out with
  | nil => simp [fireFrom]
  | cons e heap ih =>
    by_cases hdue : now < e.deadline
    · have hlater : ∀ x ∈ e :: heap, now < x.deadline := by
        intro x hx
        rcases List.mem_cons.mp hx with rfl | hx
        · exact hdue
        · exact Nat.lt_of_lt_of_le hdue
            (entry_deadline_le (le_of_lt (List.rel_of_pairwise_cons hsorted hx)))
      have hfire : fireFrom now (e :: heap) wakers out = (e :: heap, wakers, out) := by
        unfold fireFrom
        exact if_pos hdue
      rw [hfire]
      refine ⟨?_, fun id => ?_, ?_⟩
      · exact (List.filter_eq_self.mpr fun x hx => decide_eq_true (hlater x hx)).symm
      · rw [if_neg]
        rintro ⟨x, hx, hle, _⟩
        exact absurd (hlater x hx) (by omega)
      · have hnil : ((e :: heap).filter fun e => decide (e.deadline ≤ now)) = [] := by
          apply List.filter_eq_nil_iff.mpr
          intro x hx hle
          have hle' : x.deadline ≤ now := of_decide_eq_true hle
          exact absurd (hlater x hx) (by omega)
        rw [hnil]
        exact (List.append_nil out).symm
    · have hnot : e.id ∉ heap.map TimerEntry.id := (List.nodup_cons.mp hids).1
      have hrest := ih (List.nodup_cons.mp hids).2 hsorted.of_cons (wakers.erase e.id)
        (out ++ (wakers.lookup e.id).toList)
      have hfire : fireFrom now (e :: heap) wakers out =
          fireFrom now heap (wakers.erase e.id) (out ++ (wakers.lookup e.id).toList) := by
        rw [fireFrom, if_neg hdue]
        cases wakers.lookup e.id with
        | none => exact congrArg _ (List.append_nil out).symm
        | some waker => rfl
      have hsame : ∀ x ∈ heap, (wakers.erase e.id).lookup x.id = wakers.lookup x.id := by
        intro x hx
        apply AList.lookup_erase_ne
        intro heq
        exact hnot (heq ▸ List.mem_map_of_mem hx)
      rw [hfire]
      refine ⟨?_, fun id => ?_, ?_⟩
      · rw [hrest.1, List.filter_cons_of_neg (by simpa using hdue)]
      · rw [hrest.2.1, Table.lookup_erase_eq]
        by_cases hid : id = e.id
        · rw [if_pos hid, ite_self, if_pos ⟨e, List.mem_cons_self .., by omega, hid.symm⟩]
        · rw [if_neg hid]
          refine if_congr ?_ rfl rfl
          constructor
          · rintro ⟨x, hx, hx'⟩
            exact ⟨x, List.mem_cons_of_mem e hx, hx'⟩
          · rintro ⟨x, hx, hx'⟩
            rcases List.mem_cons.mp hx with rfl | hx
            · exact absurd hx'.2.symm hid
            · exact ⟨x, hx, hx'⟩
      · have hcons : ((e :: heap).filter fun e => decide (e.deadline ≤ now)) =
            e :: heap.filter fun e => decide (e.deadline ≤ now) :=
          List.filter_cons_of_pos (decide_eq_true (by omega))
        have hmap : ((heap.filter fun e => decide (e.deadline ≤ now)).filterMap
            fun x => (wakers.erase e.id).lookup x.id) =
            (heap.filter fun e => decide (e.deadline ≤ now)).filterMap
              fun x => wakers.lookup x.id :=
          List.filterMap_congr fun x hx => hsame x (List.mem_filter.mp hx).1
        rw [hrest.2.2, hcons, hmap, List.append_assoc]
        congr 1
        cases hlook : wakers.lookup e.id with
        | none =>
          rw [List.filterMap_cons]
          simp only [hlook]
          rfl
        | some waker =>
          rw [List.filterMap_cons]
          simp only [hlook]
          rfl

theorem holds_fireExpired (h : t.Holds timers) (now : Nat) (out : List W) :
    (t.fireExpired now out).2.Holds (timers.after (.fireExpired now out)) := by
  obtain ⟨hheap, hwakers, _⟩ := fireFrom_eq now h.ids h.sorted t.wakers out
  have hsub : (fireFrom now t.heap t.wakers out).1.Sublist t.heap := by
    rw [hheap]
    exact List.filter_sublist
  refine ⟨h.sorted.sublist hsub, h.ids.sublist (hsub.map _), fun id => ?_, fun id d w hlive => ?_,
    fun e he hnone => ?_⟩
  · show (fireFrom now t.heap t.wakers out).2.1.lookup id =
      ((timers.live id).filter fun timer => decide (now < timer.1)).map Prod.snd
    rw [hwakers, h.waker]
    cases hlive : timers.live id with
    | none => simp
    | some timer =>
      have hmem := h.entry id timer.1 timer.2 hlive
      rw [Option.filter_some]
      by_cases hdue : now < timer.1
      · rw [if_neg, if_pos (decide_eq_true hdue)]
        rintro ⟨e, he, hle, rfl⟩
        rw [h.deadline_of_mem he hlive] at hdue
        omega
      · rw [if_pos ⟨_, hmem, by simpa using hdue, rfl⟩, if_neg (by simpa using hdue)]
        rfl
  · obtain ⟨hlive', hlater⟩ := Option.filter_eq_some_iff.mp hlive
    show _ ∈ (fireFrom now t.heap t.wakers out).1
    rw [hheap]
    exact List.mem_filter.mpr ⟨h.entry id d w hlive', hlater⟩
  · have he' : e ∈ (fireFrom now t.heap t.wakers out).1 := he
    rw [hheap] at he'
    obtain ⟨hmem, hlater⟩ := List.mem_filter.mp he'
    refine h.dead e hmem ?_
    cases hlive : timers.live e.id with
    | none => rfl
    | some timer =>
      have hfilter : (timers.live e.id).filter (fun timer => decide (now < timer.1)) = none := hnone
      rw [hlive, Option.filter_some, h.deadline_of_mem hmem hlive, if_pos hlater] at hfilter
      cases hfilter

theorem Holds.serves (h : t.Holds timers) : t.Serves timers := by
  refine ⟨next_iff h, ?_, fun now out => ?_⟩
  · constructor
    · intro hnone id
      rw [← Option.not_isSome_iff_eq_none, Option.isSome_iff_exists]
      rintro ⟨timer, hlive⟩
      have hmem := mem_popDead (h.entry id timer.1 timer.2 hlive) ((h.isSome_iff id).mpr ⟨_, hlive⟩)
      have hnil : popDead t.wakers t.heap = [] :=
        List.head?_eq_none_iff.mp (Option.map_eq_none_iff.mp hnone)
      rw [hnil] at hmem
      cases hmem
    · intro hnone
      cases hnext : t.nextDeadline.1 with
      | none => rfl
      | some deadline =>
        obtain ⟨id, waker, hlive⟩ := ((next_iff h deadline).mp hnext).1
        rw [hnone id] at hlive
        cases hlive
  · have hout := (fireFrom_eq now h.ids h.sorted t.wakers out).2.2
    refine ⟨(t.heap.filter fun e => decide (e.deadline ≤ now)).filter
      fun e => (timers.live e.id).isSome, ?_, fun e => ?_, ?_⟩
    · exact (h.sorted.sublist List.filter_sublist).sublist List.filter_sublist
    · rw [List.mem_filter, List.mem_filter, Option.isSome_iff_exists, decide_eq_true_iff]
      constructor
      · rintro ⟨⟨he, hle⟩, timer, hlive⟩
        refine ⟨timer.2, ?_, hle⟩
        rw [hlive, ← h.deadline_of_mem he hlive]
      · rintro ⟨waker, hlive, hle⟩
        exact ⟨⟨h.entry e.id e.deadline waker hlive, hle⟩, _, hlive⟩
    · show (fireFrom now t.heap t.wakers out).2.2 = _
      rw [hout]
      congr 1
      refine Eq.trans ?_ List.filterMap_filter.symm
      apply List.filterMap_congr
      intro e _
      rw [h.waker]
      cases timers.live e.id <;> rfl

end Timers

namespace LegalTimers

variable {calls : List (TimerCall W)} {call : TimerCall W}

theorem append_left {later : List (TimerCall W)} (h : LegalTimers (calls ++ later)) :
    LegalTimers calls where
  oneDeadline id d w d' w' hd hd' := h.oneDeadline id d w d' w' (List.mem_append_left _ hd)
    (List.mem_append_left _ hd')
  notCancelled := (List.pairwise_append.mp h.notCancelled).1

end LegalTimers

theorem Timers.run_append (calls : List (TimerCall W)) (call : TimerCall W) :
    Timers.run (calls ++ [call]) = call.after (Timers.run calls) :=
  List.foldl_append

namespace LiveTimers

theorem run_append (calls : List (TimerCall W)) (call : TimerCall W) :
    run (calls ++ [call]) = (run calls).after call :=
  List.foldl_append

/-- A live timer has been parked with its deadline and its waker. -/
theorem park_of_live {calls : List (TimerCall W)} {id : TimerId} {timer : Nat × W}
    (h : (run calls).live id = some timer) : .park id timer.1 timer.2 ∈ calls := by
  induction calls using List.reverseRecOn with
  | nil => cases h
  | append_singleton calls call ih =>
    rw [run_append] at h
    cases call with
    | allocate => exact List.mem_append_left _ (ih h)
    | nextDeadline => exact List.mem_append_left _ (ih h)
    | park id' deadline waker =>
      have hlive : (if id = id' then some (deadline, waker) else (run calls).live id) = some timer := h
      split at hlive
      next hid =>
        cases hlive
        rw [hid]
        exact List.mem_append_right _ (List.mem_singleton.mpr rfl)
      next => exact List.mem_append_left _ (ih hlive)
    | cancel id' =>
      have hlive : (if id = id' then none else (run calls).live id) = some timer := h
      split at hlive
      next => cases hlive
      next => exact List.mem_append_left _ (ih hlive)
    | fireExpired now out =>
      exact List.mem_append_left _ (ih (Option.filter_eq_some_iff.mp h).1)

theorem cancel_of_cancelled {calls : List (TimerCall W)} {id : TimerId}
    (h : (run calls).cancelled id) : .cancel id ∈ calls := by
  induction calls using List.reverseRecOn with
  | nil => cases h
  | append_singleton calls call ih =>
    rw [run_append] at h
    cases call with
    | cancel id' =>
      rcases h with rfl | h
      · exact List.mem_append_right _ (List.mem_singleton.mpr rfl)
      · exact List.mem_append_left _ (ih h)
    | _ => exact List.mem_append_left _ (ih h)

end LiveTimers

theorem Timers.holds_run {calls : List (TimerCall W)} (h : LegalTimers calls) :
    (Timers.run calls).Holds (LiveTimers.run calls) := by
  induction calls using List.reverseRecOn with
  | nil => exact holds_start
  | append_singleton calls call ih =>
    have hrun := ih h.append_left
    rw [run_append, LiveTimers.run_append]
    cases call with
    | allocate => exact ⟨hrun.sorted, hrun.ids, hrun.waker, hrun.entry, hrun.dead⟩
    | nextDeadline => exact holds_nextDeadline hrun
    | cancel id => exact holds_cancel hrun id
    | fireExpired now out => exact holds_fireExpired hrun now out
    | park id deadline waker =>
      have hlast : ∀ c ∈ calls, ∀ id' d w, c = .cancel id' →
          TimerCall.park id deadline waker ≠ .park id' d w :=
        fun c hc => (List.pairwise_append.mp h.notCancelled).2.2 c hc _ (List.mem_singleton.mpr rfl)
      refine holds_park hrun waker (fun hcancel => ?_) fun timer hlive => ?_
      · exact hlast _ (LiveTimers.cancel_of_cancelled hcancel) id deadline waker rfl rfl
      · exact h.oneDeadline id timer.1 timer.2 deadline waker
          (List.mem_append_left _ (LiveTimers.park_of_live hlive))
          (List.mem_append_right _ (List.mem_singleton.mpr rfl))

/-- After any legal calls the timers answer by the live ones alone. A timer that is parked again
after it has fired is live again. -/
theorem timers_run (calls : List (TimerCall W)) (h : LegalTimers calls) :
    (Timers.run calls).Serves (LiveTimers.run calls) :=
  (Timers.holds_run h).serves

/-- A cancelled timer does not hold the shard awake. -/
theorem timers_run_cancelled :
    (Timers.run [.park 1 5 'a', .park 2 9 'b', .cancel 1]).nextDeadline.1 = some 9 := by
  have h : LegalTimers [TimerCall.park 1 5 'a', .park 2 9 'b', .cancel 1] := by
    refine ⟨fun id d w d' w' hd hd' => ?_, ?_⟩
    · simp only [List.mem_cons, TimerCall.park.injEq, List.not_mem_nil, or_false, reduceCtorEq]
        at hd hd'
      grind
    · simp
  refine ((timers_run _ h).next 9).mpr ⟨⟨2, 'b', rfl⟩, ?_⟩
  rintro d ⟨id, waker, hlive⟩
  have hpark := LiveTimers.park_of_live hlive
  simp only [List.mem_cons, TimerCall.park.injEq, List.not_mem_nil, or_false, reduceCtorEq] at hpark
  rcases hpark with ⟨rfl, _, _⟩ | ⟨_, rfl, _⟩
  · cases hlive
  · exact Nat.le_refl 9

end Kernway
