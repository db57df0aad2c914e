import Kernway.Readiness
import Kernway.Runs
import Kernway.Table

namespace Kernway.RtCore

open Readiness

inductive Direction
  | read
  | write
  deriving DecidableEq

/-- A waker is its data and its table of functions, the two pointers that `will_wake` compares. -/
structure Parked (W : Type) where
  read : Option W := none
  write : Option W := none
  readReady : Bool := false
  writeReady : Bool := false

namespace Parked

variable {W : Type}

def waker (slot : Parked W) : Direction → Option W
  | .read => slot.read
  | .write => slot.write

def ready (slot : Parked W) : Direction → Bool
  | .read => slot.readReady
  | .write => slot.writeReady

def setWaker (slot : Parked W) (waker : Option W) : Direction → Parked W
  | .read => { slot with read := waker }
  | .write => { slot with write := waker }

def setReady (slot : Parked W) (ready : Bool) : Direction → Parked W
  | .read => { slot with readReady := ready }
  | .write => { slot with writeReady := ready }

/-- `park` on the slot: the waker that is woken at once, if any. -/
def park [DecidableEq W] (slot : Parked W) (d : Direction) (waker : W) : Option W × Parked W :=
  if slot.ready d then (some waker, (slot.setReady false d).setWaker none d)
  else
    match slot.waker d with
    | some existing =>
      if existing = waker then (none, slot) else (none, slot.setWaker (some waker) d)
    | none => (none, slot.setWaker (some waker) d)

/-- An event for one direction: the waker that is woken, or the edge is remembered. -/
def deliver (slot : Parked W) (d : Direction) : Option W × Parked W :=
  match slot.waker d with
  | some waker => (some waker, slot.setWaker none d)
  | none => (none, slot.setReady true d)

end Parked

/-- An event of the operating system; the last three are failures of the source. -/
structure OsEvent where
  token : Nat
  readable : Bool
  writable : Bool
  error : Bool
  readClosed : Bool
  writeClosed : Bool

def unparkToken : Nat := 0

def OsEvent.failed (e : OsEvent) : Bool := e.error || e.readClosed || e.writeClosed

/-- The directions that an event is an edge for, in the order in which they are handled. -/
def OsEvent.edges (e : OsEvent) : List (Nat × Direction) :=
  if e.token = unparkToken then []
  else (if e.readable || e.failed then [(e.token, .read)] else []) ++
    if e.writable || e.failed then [(e.token, .write)] else []

inductive PollResult
  | ok (events : List OsEvent)
  | interrupted
  | failed

structure Reactor (W : Type) where
  parked : Table Nat (Parked W) := ∅
  nextToken : Nat := unparkToken + 1

inductive Call (W : Type)
  | register (ok : Bool)
  | reregister (token : Nat)
  | deregister (token : Nat)
  | park (token : Nat) (d : Direction) (waker : W)
  | poll (result : PollResult)

/-- A reactor, and what has happened at its sources. -/
structure State (W : Type) where
  reactor : Reactor W := {}
  log : List (Entry Nat Direction W) := []

namespace State

variable {W : Type} [DecidableEq W] (s : State W)

/-- The token is used up even where the system refuses the source. -/
def register (ok : Bool) : Option Nat × State W :=
  let token := s.reactor.nextToken
  if ok then
    (some token,
      { reactor := { parked := s.reactor.parked.insert token {}, nextToken := token + 1 }
        log := s.log ++ [.opened token] })
  else (none, { s with reactor := { s.reactor with nextToken := token + 1 } })

def deregister (token : Nat) : State W :=
  { reactor := { s.reactor with parked := s.reactor.parked.erase token }
    log := s.log ++ [.closed token] }

def park (token : Nat) (d : Direction) (waker : W) : State W :=
  let slot := (s.reactor.parked.lookup token).getD {}
  { reactor := { s.reactor with parked := s.reactor.parked.insert token (slot.park d waker).2 }
    log := s.log ++ .parked token d waker ::
      ((slot.park d waker).1.map fun w => .woken token d w).toList }

/-- A source that is not there any more is passed over. -/
def deliver (token : Nat) (d : Direction) : State W :=
  match s.reactor.parked.lookup token with
  | none => { s with log := s.log ++ [.edge token d] }
  | some slot =>
    { reactor := { s.reactor with parked := s.reactor.parked.insert token (slot.deliver d).2 }
      log := s.log ++ .edge token d ::
        ((slot.deliver d).1.map fun w => .woken token d w).toList }

/-- The wakers that the edge wakes. -/
def wokenAt (token : Nat) (d : Direction) : Nat :=
  match s.reactor.parked.lookup token with
  | none => 0
  | some slot => if (slot.deliver d).1.isSome then 1 else 0

/-- The number of wakers that were woken, or `none` for an error. -/
def poll : PollResult → Option Nat × State W
  | .ok events => (events.flatMap OsEvent.edges).foldl (fun r p =>
      (r.1.map (· + r.2.wokenAt p.1 p.2), r.2.deliver p.1 p.2)) (some 0, s)
  | .interrupted => (some 0, s)
  | .failed => (none, s)

def after : Call W → State W
  | .register ok => (s.register ok).2
  | .reregister _ => s
  | .deregister token => s.deregister token
  | .park token d waker => s.park token d waker
  | .poll result => (s.poll result).2

end State

def system (W : Type) [DecidableEq W] : System (State W) (Call W) where
  start s := s = {}
  step s call s' := s' = s.after call

def openedToken {W : Type} : Entry Nat Direction W → Option Nat
  | .opened token => some token
  | _ => none

/-- No edge is lost; a waker that is waiting is in its slot; and no token is given twice. -/
structure State.Keeps {W : Type} [DecidableEq W] (s : State W) : Prop where
  honoured : Honoured s.log
  held : ∀ token d w, waiting token d s.log = some w →
    ∃ slot, s.reactor.parked.lookup token = some slot ∧ slot.waker d = some w
  fresh : (s.log.filterMap openedToken).Nodup ∧ unparkToken ∉ s.log.filterMap openedToken

variable {W : Type}

namespace Parked

variable {slot : Parked W} {d d' : Direction}

theorem waker_setWaker (slot : Parked W) (w : Option W) (d d' : Direction) :
    (slot.setWaker w d).waker d' = if d' = d then w else slot.waker d' := by
  cases d with
  | read => cases d' <;> rfl
  | write => cases d' <;> rfl

theorem ready_setWaker (slot : Parked W) (w : Option W) (d d' : Direction) :
    (slot.setWaker w d).ready d' = slot.ready d' := by
  cases d with
  | read => cases d' <;> rfl
  | write => cases d' <;> rfl

theorem waker_setReady (slot : Parked W) (b : Bool) (d d' : Direction) :
    (slot.setReady b d).waker d' = slot.waker d' := by
  cases d with
  | read => cases d' <;> rfl
  | write => cases d' <;> rfl

theorem ready_setReady (slot : Parked W) (b : Bool) (d d' : Direction) :
    (slot.setReady b d).ready d' = if d' = d then b else slot.ready d' := by
  cases d with
  | read => cases d' <;> rfl
  | write => cases d' <;> rfl

/-- An edge is remembered only where no waker is parked. -/
def Tidy (slot : Parked W) : Prop := ∀ d, slot.ready d = true → slot.waker d = none

/-- The state of a direction, as its slot has it. -/
def wait (slot : Parked W) (d : Direction) : Wait W :=
  match slot.waker d with
  | some w => .parked w
  | none => if slot.ready d then .ready else .idle

theorem wait_congr {slot' : Parked W} (hwaker : slot'.waker d = slot.waker d)
    (hready : slot'.ready d = slot.ready d) : slot'.wait d = slot.wait d := by
  unfold wait
  rw [hwaker, hready]

theorem wait_cases (slot : Parked W) (d : Direction) :
    slot.wait d = .idle ∨ slot.wait d = .ready ∨ ∃ w, slot.wait d = .parked w := by
  unfold wait
  split
  next w _ => exact .inr (.inr ⟨w, rfl⟩)
  next =>
    split
    next => exact .inr (.inl rfl)
    next => exact .inl rfl

theorem wait_ne_due (slot : Parked W) (d : Direction) (w : W) : slot.wait d ≠ .due w := by
  rcases slot.wait_cases d with h | h | ⟨w', h⟩
  · rw [h]
    exact nofun
  · rw [h]
    exact nofun
  · rw [h]
    exact nofun

theorem tidy_empty : ({} : Parked W).Tidy := fun d hd => by cases d <;> cases hd

theorem wait_empty (d : Direction) : ({} : Parked W).wait d = .idle := by cases d <;> rfl

theorem wait_of_waker {w : W} (h : slot.waker d = some w) : slot.wait d = .parked w := by
  unfold wait
  rw [h]

theorem wait_of_none (h : slot.waker d = none) :
    slot.wait d = if slot.ready d then .ready else .idle := by
  unfold wait
  rw [h]

variable [DecidableEq W]

/-- What `park` leaves: an edge is taken with the waker, else the waker is parked. -/
theorem park_cases (h : slot.Tidy) (d : Direction) (w : W) :
    (slot.park d w).2.Tidy ∧
      (∀ d', d' ≠ d → (slot.park d w).2.wait d' = slot.wait d') ∧
      (slot.wait d = .ready ∧ (slot.park d w).1 = some w ∧ (slot.park d w).2.wait d = .idle ∨
        slot.wait d ≠ .ready ∧ (slot.park d w).1 = none ∧
          (slot.park d w).2.wait d = .parked w) := by
  by_cases hready : slot.ready d = true
  · have hpark : slot.park d w = (some w, (slot.setReady false d).setWaker none d) := if_pos hready
    have hwaker : ∀ d', (slot.park d w).2.waker d' = if d' = d then none else slot.waker d' := by
      intro d'
      rw [hpark, waker_setWaker, waker_setReady]
    have hflag : ∀ d', (slot.park d w).2.ready d' = if d' = d then false else slot.ready d' := by
      intro d'
      rw [hpark, ready_setWaker, ready_setReady]
    refine ⟨fun d' hd' => ?_, fun d' hd' => ?_, .inl ⟨?_, ?_, ?_⟩⟩
    · rw [hwaker]
      split
      next => rfl
      next hne =>
        rw [hflag, if_neg hne] at hd'
        exact h d' hd'
    · exact wait_congr (by rw [hwaker, if_neg hd']) (by rw [hflag, if_neg hd'])
    · rw [wait_of_none (h d hready), if_pos hready]
    · rw [hpark]
    · rw [wait_of_none (by rw [hwaker, if_pos rfl]), hflag, if_pos rfl]
      rfl
  · have hpark : (slot.park d w).1 = none ∧ (∀ d', (slot.park d w).2.waker d' =
        if d' = d then some w else slot.waker d') ∧
        ∀ d', (slot.park d w).2.ready d' = slot.ready d' := by
      unfold park
      rw [if_neg hready]
      split
      next existing hexisting =>
        split
        next heq =>
          refine ⟨rfl, fun d' => ?_, fun _ => rfl⟩
          split
          next hd => rw [hd, hexisting, heq]
          next => rfl
        next => exact ⟨rfl, waker_setWaker slot (some w) d, ready_setWaker slot (some w) d⟩
      next => exact ⟨rfl, waker_setWaker slot (some w) d, ready_setWaker slot (some w) d⟩
    obtain ⟨hwoken, hwaker, hflag⟩ := hpark
    refine ⟨fun d' hd' => ?_, fun d' hd' => ?_, .inr ⟨?_, hwoken, ?_⟩⟩
    · rw [hflag] at hd'
      rw [hwaker, if_neg, h d' hd']
      rintro rfl
      exact hready hd'
    · exact wait_congr (by rw [hwaker, if_neg hd']) (hflag d')
    · unfold wait
      split
      next => exact nofun
      next =>
        rw [if_neg hready]
        exact nofun
    · exact wait_of_waker (by rw [hwaker, if_pos rfl])

omit [DecidableEq W] in
/-- What an edge leaves: the waker is woken, or the edge is remembered. -/
theorem deliver_cases (h : slot.Tidy) (d : Direction) :
    (slot.deliver d).2.Tidy ∧
      (∀ d', d' ≠ d → (slot.deliver d).2.wait d' = slot.wait d') ∧
      ((∃ w, slot.wait d = .parked w ∧ (slot.deliver d).1 = some w ∧
          (slot.deliver d).2.wait d = .idle) ∨
        (slot.wait d = .ready ∨ slot.wait d = .idle) ∧ (slot.deliver d).1 = none ∧
          (slot.deliver d).2.wait d = .ready) := by
  cases hslot : slot.waker d with
  | some w =>
    have hdeliver : slot.deliver d = (some w, slot.setWaker none d) := by
      unfold deliver
      rw [hslot]
    have hidle : slot.ready d = false := by
      cases hready : slot.ready d with
      | false => rfl
      | true =>
        have hnone := h d hready
        rw [hslot] at hnone
        cases hnone
    rw [hdeliver]
    refine ⟨fun d' hd' => ?_, fun d' hd' => ?_, .inl ⟨w, wait_of_waker hslot, rfl, ?_⟩⟩
    · rw [ready_setWaker] at hd'
      rw [waker_setWaker]
      split
      next => rfl
      next => exact h d' hd'
    · exact wait_congr (by rw [waker_setWaker, if_neg hd']) (ready_setWaker slot none d d')
    · rw [wait_of_none (by rw [waker_setWaker, if_pos rfl]), ready_setWaker, hidle]
      rfl
  | none =>
    have hdeliver : slot.deliver d = (none, slot.setReady true d) := by
      unfold deliver
      rw [hslot]
    rw [hdeliver]
    refine ⟨fun d' hd' => ?_, fun d' hd' => ?_, .inr ⟨?_, rfl, ?_⟩⟩
    · rw [waker_setReady]
      rw [ready_setReady] at hd'
      split at hd'
      next heq => rw [heq, hslot]
      next => exact h d' hd'
    · exact wait_congr (waker_setReady slot true d d') (by rw [ready_setReady, if_neg hd'])
    · rw [wait_of_none hslot]
      split
      next => exact .inl rfl
      next => exact .inr rfl
    · rw [wait_of_none (by rw [waker_setReady, hslot]), ready_setReady, if_pos rfl]
      rfl

end Parked

namespace State

variable {s : State W}

/-- The state of one direction of one source. -/
def view (s : State W) (token : Nat) (d : Direction) : Wait W :=
  match s.reactor.parked.lookup token with
  | none => .absent
  | some slot => slot.wait d

theorem view_of_slot {token : Nat} {slot : Parked W}
    (h : s.reactor.parked.lookup token = some slot) (d : Direction) :
    s.view token d = slot.wait d := by
  unfold view
  rw [h]

theorem view_ne_due (s : State W) (token : Nat) (d : Direction) (w : W) :
    s.view token d ≠ .due w := by
  unfold view
  split
  next => exact nofun
  next slot _ => exact slot.wait_ne_due d w

variable [DecidableEq W]

/-- What every state that is reached has: tidy slots, and a log that leads to what they hold. -/
structure Inv (s : State W) : Prop where
  tidy : ∀ token slot, s.reactor.parked.lookup token = some slot → slot.Tidy
  follows : ∀ token d, Follows token d s.log (s.view token d)
  positive : unparkToken < s.reactor.nextToken
  opened : ∀ token ∈ s.log.filterMap openedToken, unparkToken < token ∧ token < s.reactor.nextToken
  nodup : (s.log.filterMap openedToken).Nodup

theorem next_unseen {x : Nat} {d : Direction} {q : Wait W} {e : Entry Nat Direction W}
    (h : e.seen x d = none) (hq : ∀ w, q ≠ .due w) : next x d q e = some q := by
  unfold next
  rw [h]
  cases q with
  | due w => exact absurd rfl (hq w)
  | _ => rfl

/-- The entries of a call, which may wake one waker. -/
theorem follows_entries {x : Nat} {d : Direction} {q q' q'' : Wait W}
    {log : List (Entry Nat Direction W)} {e : Entry Nat Direction W} {woken : Option W}
    {token : Nat} {d' : Direction} (h : Follows x d log q) (hnext : next x d q e = some q')
    (hwoken : ∀ w, woken = some w → next x d q' (.woken token d' w) = some q'')
    (hnone : woken = none → q'' = q') :
    Follows x d (log ++ e :: (woken.map fun w => .woken token d' w).toList) q'' := by
  have hfirst := follows_concat h hnext
  cases hw : woken with
  | none =>
    rw [hnone hw]
    exact hfirst
  | some w =>
    have hsecond := follows_concat hfirst (hwoken w hw)
    rw [List.append_assoc] at hsecond
    exact hsecond

omit [DecidableEq W] in
theorem filterMap_entries {token : Nat} {d : Direction} {woken : Option W}
    {e : Entry Nat Direction W} (he : openedToken e = none) (log : List (Entry Nat Direction W)) :
    (log ++ e :: (woken.map fun w => .woken token d w).toList).filterMap openedToken =
      log.filterMap openedToken := by
  rw [List.filterMap_append, List.filterMap_cons_none he]
  cases woken with
  | none => exact List.append_nil _
  | some w => exact List.append_nil _

omit [DecidableEq W] in
theorem seen_of_ne {x token : Nat} (hne : token ≠ x) (d d' : Direction) (w : W) :
    (Entry.parked token d' w).seen x d = none ∧
      (Entry.edge token d' : Entry Nat Direction W).seen x d = none ∧
      (Entry.woken token d' w).seen x d = none :=
  ⟨if_neg hne, if_neg fun h => hne h.1, if_neg fun h => hne h.1⟩

omit [DecidableEq W] in
theorem woken_unseen {d d' : Direction} (hne : d' ≠ d) (token x : Nat) (w : W) :
    (Entry.woken token d w).seen x d' = none := if_neg fun h => hne h.2.symm

theorem Inv.register (h : s.Inv) (ok : Bool) : (s.register ok).2.Inv := by
  cases ok with
  | false =>
    refine ⟨h.tidy, h.follows, Nat.lt_succ_of_lt h.positive, fun token htoken => ?_, h.nodup⟩
    obtain ⟨hpos, hlt⟩ := h.opened token htoken
    exact ⟨hpos, Nat.lt_succ_of_lt hlt⟩
  | true =>
    have hlookup : ∀ token, (s.register true).2.reactor.parked.lookup token =
        if token = s.reactor.nextToken then some {} else s.reactor.parked.lookup token :=
      fun token => Table.lookup_insert_eq s.reactor.parked s.reactor.nextToken token {}
    have hopened : (s.register true).2.log.filterMap openedToken =
        s.log.filterMap openedToken ++ [s.reactor.nextToken] := List.filterMap_append
    refine ⟨fun token slot hslot => ?_, fun token d => ?_, Nat.lt_succ_of_lt h.positive,
      fun token htoken => ?_, ?_⟩
    · rw [hlookup] at hslot
      split at hslot
      next =>
        cases hslot
        exact Parked.tidy_empty
      next => exact h.tidy token slot hslot
    · refine follows_concat (h.follows token d) ?_
      by_cases htoken : token = s.reactor.nextToken
      · have hview : (s.register true).2.view token d = .idle := by
          rw [view_of_slot (by rw [hlookup, if_pos htoken])]
          exact Parked.wait_empty d
        have hact : (Entry.opened s.reactor.nextToken : Entry Nat Direction W).seen token d =
            some .open := if_pos htoken.symm
        rw [hview, next_of_seen hact]
        cases hq : s.view token d with
        | due w => exact absurd hq (view_ne_due s token d w)
        | _ => rfl
      · have hview : (s.register true).2.view token d = s.view token d := by
          unfold view
          rw [hlookup, if_neg htoken]
        rw [hview]
        exact next_unseen (if_neg (Ne.symm htoken)) (view_ne_due s token d)
    · rw [hopened] at htoken
      show unparkToken < token ∧ token < s.reactor.nextToken + 1
      rcases List.mem_append.mp htoken with htoken | htoken
      · obtain ⟨hpos, hlt⟩ := h.opened token htoken
        exact ⟨hpos, Nat.lt_succ_of_lt hlt⟩
      · rw [List.mem_singleton.mp htoken]
        exact ⟨h.positive, Nat.lt_succ_self _⟩
    · rw [hopened]
      refine List.nodup_append.mpr ⟨h.nodup, List.pairwise_singleton _ _, fun a ha b hb => ?_⟩
      rw [List.mem_singleton.mp hb]
      exact Nat.ne_of_lt (h.opened a ha).2

theorem Inv.deregister (h : s.Inv) (token : Nat) : (s.deregister token).Inv := by
  have hlookup : ∀ x, (s.deregister token).reactor.parked.lookup x =
      if x = token then none else s.reactor.parked.lookup x :=
    Table.lookup_erase_eq s.reactor.parked token
  have hopened : (s.deregister token).log.filterMap openedToken = s.log.filterMap openedToken :=
    List.filterMap_append.trans (List.append_nil _)
  refine ⟨fun x slot hslot => ?_, fun x d => ?_, h.positive, fun x hx => ?_, ?_⟩
  · rw [hlookup] at hslot
    split at hslot
    next => cases hslot
    next => exact h.tidy x slot hslot
  · refine follows_concat (h.follows x d) ?_
    by_cases hx : x = token
    · have hview : (s.deregister token).view x d = .absent := by
        unfold view
        rw [hlookup, if_pos hx]
      have hact : (Entry.closed token : Entry Nat Direction W).seen x d = some .close :=
        if_pos hx.symm
      rw [hview, next_of_seen hact]
      cases hq : s.view x d with
      | due w => exact absurd hq (view_ne_due s x d w)
      | _ => rfl
    · have hview : (s.deregister token).view x d = s.view x d := by
        unfold view
        rw [hlookup, if_neg hx]
      rw [hview]
      exact next_unseen (if_neg (Ne.symm hx)) (view_ne_due s x d)
  · rw [hopened] at hx
    exact h.opened x hx
  · rw [hopened]
    exact h.nodup

/-- To park on a source that is not there is to park on a fresh slot. -/
theorem move_view {token : Nat} {slot : Parked W}
    (hslot : (s.reactor.parked.lookup token).getD {} = slot) (d : Direction) {act : Act W}
    (hact : act = .touch ∨ ∃ w, act = .park w) :
    move (s.view token d) act = move (slot.wait d) act := by
  cases hlook : s.reactor.parked.lookup token with
  | none =>
    rw [hlook] at hslot
    have hview : s.view token d = .absent := by
      unfold view
      rw [hlook]
    rw [← hslot, hview, Option.getD_none, Parked.wait_empty]
    rcases hact with rfl | ⟨w, rfl⟩
    · rfl
    · rfl
  | some slot' =>
    rw [hlook] at hslot
    rw [← hslot, view_of_slot hlook, Option.getD_some]

theorem tidy_slot (h : s.Inv) {token : Nat} {slot : Parked W}
    (hslot : (s.reactor.parked.lookup token).getD {} = slot) : slot.Tidy := by
  rw [← hslot]
  cases hlook : s.reactor.parked.lookup token with
  | none => exact Parked.tidy_empty
  | some slot' => exact h.tidy token slot' hlook

theorem move_touch (slot : Parked W) (d : Direction) :
    move (slot.wait d) .touch = some (slot.wait d) := by
  rcases slot.wait_cases d with h | h | ⟨w, h⟩
  · rw [h]; rfl
  · rw [h]; rfl
  · rw [h]; rfl

theorem Inv.park (h : s.Inv) (token : Nat) (d : Direction) (w : W) :
    (s.park token d w).Inv := by
  obtain ⟨slot, hslot⟩ : ∃ slot, (s.reactor.parked.lookup token).getD {} = slot := ⟨_, rfl⟩
  obtain ⟨htidy, hother, hcases⟩ := Parked.park_cases (tidy_slot h hslot) d w
  have hlookup : ∀ x, (s.park token d w).reactor.parked.lookup x =
      if x = token then some (slot.park d w).2 else s.reactor.parked.lookup x := by
    intro x
    rw [← hslot]
    exact Table.lookup_insert_eq s.reactor.parked token x _
  have hlog : (s.park token d w).log = s.log ++ .parked token d w ::
      ((slot.park d w).1.map fun w => .woken token d w).toList := by
    rw [← hslot]
    rfl
  refine ⟨fun x slot' hslot' => ?_, fun x d' => ?_, h.positive, ?_, ?_⟩
  · rw [hlookup] at hslot'
    split at hslot'
    next =>
      cases hslot'
      exact htidy
    next => exact h.tidy x slot' hslot'
  · rw [hlog]
    by_cases hx : x = token
    · subst hx
      rw [view_of_slot (show (s.park x d w).reactor.parked.lookup x = _ by
        rw [hlookup, if_pos rfl]) d']
      by_cases hd : d' = d
      · subst hd
        have hnext : next x d' (s.view x d') (.parked x d' w) = move (slot.wait d') (.park w) := by
          rw [next_of_seen (seen_eq_park.mpr rfl), move_view hslot d' (.inr ⟨w, rfl⟩)]
        rcases hcases with ⟨hready, hwoken, hidle⟩ | ⟨hready, hwoken, hparked⟩
        · -- an edge that was remembered makes the waker due, and it is woken
          rw [hready] at hnext
          rw [hwoken, hidle]
          refine follows_entries (h.follows x d') hnext (fun w' hw' => ?_) nofun
          cases hw'
          rw [next_of_seen (seen_eq_wake.mpr rfl)]
          exact if_pos rfl
        · have hmove : move (slot.wait d') (.park w) = some (.parked w) := by
            rcases slot.wait_cases d' with hwait | hwait | ⟨w', hwait⟩
            · rw [hwait]; rfl
            · exact absurd hwait hready
            · rw [hwait]; rfl
          rw [hmove] at hnext
          rw [hwoken, hparked]
          exact follows_entries (h.follows x d') hnext nofun fun _ => rfl
      · have hact : (Entry.parked x d w).seen x d' = some .touch := by
          unfold Entry.seen
          dsimp only
          rw [if_pos rfl, if_neg (Ne.symm hd)]
        have hnext : next x d' (s.view x d') (.parked x d w) = some (slot.wait d') := by
          rw [next_of_seen hact, move_view hslot d' (.inl rfl), move_touch]
        rw [hother d' hd]
        refine follows_entries (h.follows x d') hnext (fun w' _ => ?_) fun _ => rfl
        exact next_unseen (woken_unseen hd x x w') (slot.wait_ne_due d')
    · have hview : (s.park token d w).view x d' = s.view x d' := by
        unfold view
        rw [hlookup, if_neg hx]
      have hnext : next x d' (s.view x d') (.parked token d w) = some (s.view x d') :=
        next_unseen (seen_of_ne (Ne.symm hx) d' d w).1 (view_ne_due s x d')
      rw [hview]
      refine follows_entries (h.follows x d') hnext (fun w' _ => ?_) fun _ => rfl
      exact next_unseen (seen_of_ne (Ne.symm hx) d' d w').2.2 (view_ne_due s x d')
  · rw [hlog, filterMap_entries rfl]
    exact h.opened
  · rw [hlog, filterMap_entries rfl]
    exact h.nodup

theorem Inv.deliver (h : s.Inv) (token : Nat) (d : Direction) : (s.deliver token d).Inv := by
  cases hlook : s.reactor.parked.lookup token with
  | none =>
    have hdeliver : s.deliver token d = { s with log := s.log ++ [.edge token d] } := by
      unfold State.deliver
      rw [hlook]
    have hopened : (s.log ++ [Entry.edge token d]).filterMap openedToken =
        s.log.filterMap openedToken := List.filterMap_append.trans (List.append_nil _)
    rw [hdeliver]
    refine ⟨h.tidy, fun x d' => follows_concat (h.follows x d') ?_, h.positive, ?_, ?_⟩
    · show next x d' (s.view x d') (.edge token d) = some (s.view x d')
      by_cases hx : x = token ∧ d' = d
      · obtain ⟨rfl, rfl⟩ := hx
        have hview : s.view x d' = .absent := by
          unfold view
          rw [hlook]
        rw [next_of_seen (seen_eq_edge.mpr rfl), hview]
        rfl
      · exact next_unseen (if_neg fun hand => hx ⟨hand.1.symm, hand.2.symm⟩) (view_ne_due s x d')
    · rw [hopened]
      exact h.opened
    · rw [hopened]
      exact h.nodup
  | some slot =>
    obtain ⟨htidy, hother, hcases⟩ := Parked.deliver_cases (h.tidy token slot hlook) d
    have hdeliver : s.deliver token d =
        { reactor := { s.reactor with
            parked := s.reactor.parked.insert token (slot.deliver d).2 }
          log := s.log ++ .edge token d ::
            ((slot.deliver d).1.map fun w => .woken token d w).toList } := by
      unfold State.deliver
      rw [hlook]
    have hlookup : ∀ x, (s.deliver token d).reactor.parked.lookup x =
        if x = token then some (slot.deliver d).2 else s.reactor.parked.lookup x := by
      intro x
      rw [hdeliver]
      exact Table.lookup_insert_eq s.reactor.parked token x _
    have hlog : (s.deliver token d).log = s.log ++ .edge token d ::
        ((slot.deliver d).1.map fun w => .woken token d w).toList := by rw [hdeliver]
    have hnextToken : (s.deliver token d).reactor.nextToken = s.reactor.nextToken := by
      rw [hdeliver]
    refine ⟨fun x slot' hslot' => ?_, fun x d' => ?_, ?_, ?_, ?_⟩
    · rw [hlookup] at hslot'
      split at hslot'
      next =>
        cases hslot'
        exact htidy
      next => exact h.tidy x slot' hslot'
    · rw [hlog]
      by_cases hx : x = token
      · subst hx
        rw [view_of_slot (show (s.deliver x d).reactor.parked.lookup x = _ by
          rw [hlookup, if_pos rfl]) d']
        by_cases hd : d' = d
        · subst hd
          have hnext : next x d' (s.view x d') (.edge x d') = move (slot.wait d') .edge := by
            rw [next_of_seen (seen_eq_edge.mpr rfl), view_of_slot hlook]
          rcases hcases with ⟨w, hparked, hwoken, hidle⟩ | ⟨hwait, hwoken, hready⟩
          · -- the waker that is parked becomes due, and it is woken
            rw [hparked] at hnext
            rw [hwoken, hidle]
            refine follows_entries (h.follows x d') hnext (fun w' hw' => ?_) nofun
            cases hw'
            rw [next_of_seen (seen_eq_wake.mpr rfl)]
            exact if_pos rfl
          · have hmove : move (slot.wait d') .edge = some .ready := by
              rcases hwait with hwait | hwait
              · rw [hwait]; rfl
              · rw [hwait]; rfl
            rw [hmove] at hnext
            rw [hwoken, hready]
            exact follows_entries (h.follows x d') hnext nofun fun _ => rfl
        · have hnext : next x d' (s.view x d') (.edge x d) = some (slot.wait d') := by
            rw [view_of_slot hlook]
            exact next_unseen (if_neg fun hand => hd hand.2.symm) (slot.wait_ne_due d')
          rw [hother d' hd]
          refine follows_entries (h.follows x d') hnext (fun w' _ => ?_) fun _ => rfl
          exact next_unseen (woken_unseen hd x x w') (slot.wait_ne_due d')
      · have hview : (s.deliver token d).view x d' = s.view x d' := by
          unfold view
          rw [hlookup, if_neg hx]
        have hnext : next x d' (s.view x d') (.edge token d) = some (s.view x d') :=
          next_unseen (if_neg fun hand => hx hand.1.symm) (view_ne_due s x d')
        rw [hview]
        refine follows_entries (h.follows x d') hnext (fun w' _ => ?_) fun _ => rfl
        exact next_unseen (seen_of_ne (Ne.symm hx) d' d w').2.2 (view_ne_due s x d')
    · rw [hnextToken]
      exact h.positive
    · rw [hlog, filterMap_entries rfl, hnextToken]
      exact h.opened
    · rw [hlog, filterMap_entries rfl]
      exact h.nodup

theorem Inv.poll (h : s.Inv) (result : PollResult) : (s.poll result).2.Inv := by
  cases result with
  | interrupted => exact h
  | failed => exact h
  | ok events =>
    have hfold : ∀ (edges : List (Nat × Direction)) (r : Option Nat × State W), r.2.Inv →
        (edges.foldl (fun r p => (r.1.map (· + r.2.wokenAt p.1 p.2), r.2.deliver p.1 p.2))
          r).2.Inv := by
      intro edges
      induction edges with
      | nil => exact fun r hr => hr
      | cons p edges ih => exact fun r hr => ih _ (hr.deliver p.1 p.2)
    exact hfold _ _ h

theorem Inv.after (h : s.Inv) (call : Call W) : (s.after call).Inv := by
  cases call with
  | register ok => exact h.register ok
  | reregister token => exact h
  | deregister token => exact h.deregister token
  | park token d w => exact h.park token d w
  | poll result => exact h.poll result

theorem Inv.keeps (h : s.Inv) : s.Keeps where
  honoured := honoured_of_follows fun token d =>
    ⟨s.view token d, h.follows token d, s.view_ne_due token d⟩
  held := by
    intro token d w hw
    have hview := waiting_eq (h.follows token d)
    rw [hw] at hview
    cases hlook : s.reactor.parked.lookup token with
    | none =>
      unfold view at hview
      rw [hlook] at hview
      cases hview
    | some slot =>
      refine ⟨slot, rfl, ?_⟩
      rw [view_of_slot hlook] at hview
      unfold Parked.wait at hview
      split at hview
      next w' hw' =>
        cases hview
        exact hw'
      next =>
        split at hview
        next => cases hview
        next => cases hview
  fresh := ⟨h.nodup, fun hin => Nat.lt_irrefl _ (h.opened unparkToken hin).1⟩

end State

end Kernway.RtCore
