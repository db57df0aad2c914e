import Kernway.Runs
import Mathlib.Data.List.ReduceOption
import Mathlib.Logic.Function.Basic

namespace Kernway.Shutdown

/-- Registered waiters. The free indices are a stack with its top first. -/
structure Slots (W : Type) where
  entries : List (Option W) := []
  free : List Nat := []

namespace Slots

variable {W : Type}

def insert (slots : Slots W) (waker : W) : Slots W × Nat :=
  match slots.free with
  | index :: rest => (⟨slots.entries.set index (some waker), rest⟩, index)
  | [] => (⟨slots.entries ++ [some waker], []⟩, slots.entries.length)

def replace (slots : Slots W) (index : Nat) (waker : W) : Slots W :=
  { slots with entries := slots.entries.set index (some waker) }

def remove (slots : Slots W) (index : Nat) : Slots W :=
  match slots.entries[index]? with
  | some (some _) => ⟨slots.entries.set index none, index :: slots.free⟩
  | _ => slots

/-- The entry at an index is a registered waker. -/
def Registered (slots : Slots W) (index : Nat) (waker : W) : Prop :=
  slots.entries[index]? = some (some waker)

/-- No index is free twice, and no registered waker stands at a free one. -/
structure Sound (slots : Slots W) : Prop where
  vacant : ∀ i ∈ slots.free, slots.entries[i]? = some none
  nodup : slots.free.Nodup

theorem Sound.notMem_free {slots : Slots W} (h : slots.Sound) {i : Nat} {waker : W}
    (hi : slots.Registered i waker) : i ∉ slots.free := by
  intro hfree
  have hnone := h.vacant i hfree
  rw [hi] at hnone
  cases hnone

theorem registered_lt {slots : Slots W} {i : Nat} {waker : W} (h : slots.Registered i waker) :
    i < slots.entries.length := (List.getElem?_eq_some_iff.mp h).1

theorem getElem?_set_of_ne {entries : List (Option W)} {i j : Nat} (hij : i ≠ j) (e : Option W) :
    (entries.set i e)[j]? = entries[j]? := by
  rw [List.getElem?_set, if_neg hij]

theorem insert_registered {slots : Slots W} (h : slots.Sound) (waker : W) :
    (slots.insert waker).1.Registered (slots.insert waker).2 waker := by
  unfold insert
  cases hfree : slots.free with
  | nil => simp [Registered]
  | cons index rest =>
    have hlt := (List.getElem?_eq_some_iff.mp (h.vacant index (by simp [hfree]))).1
    simp [Registered, hlt]

/-- An insertion takes no other waker's place. -/
theorem insert_keeps {slots : Slots W} (h : slots.Sound) (waker : W) {j : Nat} {other : W}
    (hj : slots.Registered j other) :
    j ≠ (slots.insert waker).2 ∧ (slots.insert waker).1.Registered j other := by
  unfold insert
  cases hfree : slots.free with
  | nil =>
    have hlt := registered_lt hj
    refine ⟨by dsimp only; omega, ?_⟩
    rw [Registered, List.getElem?_append_left hlt]
    exact hj
  | cons index rest =>
    have hne : j ≠ index := fun heq => h.notMem_free hj (by simp [hfree, heq])
    exact ⟨hne, (getElem?_set_of_ne hne.symm _).trans hj⟩

theorem insert_sound {slots : Slots W} (h : slots.Sound) (waker : W) :
    (slots.insert waker).1.Sound := by
  unfold insert
  cases hfree : slots.free with
  | nil => exact ⟨by simp, by simp⟩
  | cons index rest =>
    have hnodup := h.nodup
    rw [hfree, List.nodup_cons] at hnodup
    refine ⟨fun i hi => ?_, hnodup.2⟩
    have hne : index ≠ i := fun heq => hnodup.1 (heq ▸ hi)
    rw [getElem?_set_of_ne hne]
    exact h.vacant i (by simp [hfree, hi])

theorem replace_registered {slots : Slots W} {index : Nat} {old : W}
    (h : slots.Registered index old) (waker : W) :
    (slots.replace index waker).Registered index waker := by
  have hlt := registered_lt h
  simp [Registered, replace, hlt]

theorem replace_keeps {slots : Slots W} {index j : Nat} (hne : j ≠ index) (waker : W) {other : W}
    (hj : slots.Registered j other) : (slots.replace index waker).Registered j other :=
  (getElem?_set_of_ne hne.symm _).trans hj

theorem replace_sound {slots : Slots W} (h : slots.Sound) {index : Nat} {old : W}
    (hold : slots.Registered index old) (waker : W) : (slots.replace index waker).Sound := by
  refine ⟨fun i hi => ?_, h.nodup⟩
  have hne : index ≠ i := fun heq => h.notMem_free hold (heq ▸ hi)
  exact (getElem?_set_of_ne hne _).trans (h.vacant i hi)

theorem remove_of_registered {slots : Slots W} {index : Nat} {old : W}
    (h : slots.Registered index old) :
    slots.remove index = ⟨slots.entries.set index none, index :: slots.free⟩ := by
  unfold remove
  rw [h]

theorem remove_keeps {slots : Slots W} {index j : Nat} {old other : W}
    (hold : slots.Registered index old) (hne : j ≠ index) (hj : slots.Registered j other) :
    (slots.remove index).Registered j other := by
  rw [remove_of_registered hold]
  exact (getElem?_set_of_ne hne.symm _).trans hj

theorem remove_sound {slots : Slots W} (h : slots.Sound) {index : Nat} {old : W}
    (hold : slots.Registered index old) : (slots.remove index).Sound := by
  have hlt := registered_lt hold
  rw [remove_of_registered hold]
  refine ⟨fun i hi => ?_, List.nodup_cons.mpr ⟨h.notMem_free hold, h.nodup⟩⟩
  by_cases heq : index = i
  · subst heq
    simp [hlt]
  · rw [getElem?_set_of_ne heq]
    exact h.vacant i ((List.mem_cons.mp hi).resolve_left (Ne.symm heq))

end Slots

/-- How far a `Waiting` is: between two polls, with its waker if the last one returned `Pending`;
in a poll; or giving its slot back, at the end of a poll or as it is dropped. -/
inductive Phase (W : Type)
  | idle (pending : Option W)
  | loaded (waker : W)
  | registered (waker : W)
  | releasing (index : Nat) (dropping : Bool)
  | dropped

/-- A future of `wait`, and the waker that it registered last. -/
structure Waiting (W : Type) where
  slot : Option Nat := none
  waker : Option W := none
  phase : Phase W := .idle none

namespace Waiting

variable {W : Type}

/-- `release` up to its critical section. -/
def release (waiting : Waiting W) (dropping : Bool) : Waiting W :=
  match waiting.slot with
  | some index => { waiting with slot := none, phase := .releasing index dropping }
  | none => { waiting with phase := if dropping then .dropped else .idle none }

/-- The slot that a waiting has not given back yet. -/
def holds (waiting : Waiting W) : Option Nat :=
  match waiting.phase with
  | .releasing index _ => some index
  | _ => waiting.slot

end Waiting

/-- How far a call of `trigger` is; a call that did not fire the signal returns at once. -/
inductive TriggerCall (W : Type)
  | firing
  | waking (rest : List W)
  | returned (fired : Bool)

structure Signal (W : Type) where
  triggered : Bool := false
  slots : Slots W := {}
  waitings : Nat → Option (Waiting W) := fun _ => none
  calls : Nat → Option (TriggerCall W) := fun _ => none
  woken : List W := []

inductive SignalEvent (W : Type)
  | wait (w : Nat)
  | load (w : Nat) (waker : W)
  | register (w : Nat)
  | recheck (w : Nat)
  | release (w : Nat)
  | drop (w : Nat)
  | swap (t : Nat)
  | drain (t : Nat)
  | wake (t : Nat)

/-- The waiting whose poll or drop takes a step. -/
def SignalEvent.waiting : {W : Type} → SignalEvent W → Option Nat
  | _, wait w | _, load w _ | _, register w | _, recheck w | _, release w | _, drop w => some w
  | _, swap _ | _, drain _ | _, wake _ => none

namespace Signal

variable {W : Type}

def setWaiting (s : Signal W) (w : Nat) (waiting : Waiting W) : Signal W :=
  { s with waitings := Function.update s.waitings w (some waiting) }

def setCall (s : Signal W) (t : Nat) (call : TriggerCall W) : Signal W :=
  { s with calls := Function.update s.calls t (some call) }

/-- The atomic accesses and the critical sections of `poll`, `drop` and `trigger`. -/
inductive Step : Signal W → SignalEvent W → Signal W → Prop
  | wait {s : Signal W} {w : Nat} : s.waitings w = none → Step s (.wait w) (s.setWaiting w {})
  | loadSet {s : Signal W} {w : Nat} {waiting : Waiting W} {last : Option W} {waker : W} :
    s.waitings w = some waiting → waiting.phase = .idle last → s.triggered = true →
    Step s (.load w waker) (s.setWaiting w (waiting.release false))
  | load {s : Signal W} {w : Nat} {waiting : Waiting W} {last : Option W} {waker : W} :
    s.waitings w = some waiting → waiting.phase = .idle last → s.triggered = false →
    Step s (.load w waker) (s.setWaiting w { waiting with phase := .loaded waker })
  | insert {s : Signal W} {w : Nat} {waiting : Waiting W} {waker : W} :
    s.waitings w = some waiting → waiting.phase = .loaded waker → waiting.slot = none →
    Step s (.register w)
      { s.setWaiting w ⟨some (s.slots.insert waker).2, some waker, .registered waker⟩ with
        slots := (s.slots.insert waker).1 }
  | replace {s : Signal W} {w index : Nat} {waiting : Waiting W} {waker : W} :
    s.waitings w = some waiting → waiting.phase = .loaded waker → waiting.slot = some index →
    Step s (.register w)
      { s.setWaiting w ⟨some index, some waker, .registered waker⟩ with
        slots := s.slots.replace index waker }
  | recheckSet {s : Signal W} {w : Nat} {waiting : Waiting W} {waker : W} :
    s.waitings w = some waiting → waiting.phase = .registered waker → s.triggered = true →
    Step s (.recheck w) (s.setWaiting w (waiting.release false))
  | recheck {s : Signal W} {w : Nat} {waiting : Waiting W} {waker : W} :
    s.waitings w = some waiting → waiting.phase = .registered waker → s.triggered = false →
    Step s (.recheck w) (s.setWaiting w { waiting with phase := .idle (some waker) })
  | release {s : Signal W} {w index : Nat} {waiting : Waiting W} {dropping : Bool} :
    s.waitings w = some waiting → waiting.phase = .releasing index dropping →
    Step s (.release w)
      { s.setWaiting w ⟨none, waiting.waker, if dropping then .dropped else .idle none⟩ with
        slots := s.slots.remove index }
  | drop {s : Signal W} {w : Nat} {waiting : Waiting W} {last : Option W} :
    s.waitings w = some waiting → waiting.phase = .idle last →
    Step s (.drop w) (s.setWaiting w (waiting.release true))
  | swapSet {s : Signal W} {t : Nat} : s.calls t = none → s.triggered = true →
    Step s (.swap t) (s.setCall t (.returned false))
  | swap {s : Signal W} {t : Nat} : s.calls t = none → s.triggered = false →
    Step s (.swap t) { s.setCall t .firing with triggered := true }
  | drain {s : Signal W} {t : Nat} : s.calls t = some .firing →
    Step s (.drain t) { s.setCall t (.waking s.slots.entries.reduceOption) with slots := {} }
  | wake {s : Signal W} {t : Nat} {waker : W} {rest : List W} :
    s.calls t = some (.waking (waker :: rest)) →
    Step s (.wake t) { s.setCall t (.waking rest) with woken := s.woken ++ [waker] }
  | woken {s : Signal W} {t : Nat} : s.calls t = some (.waking []) →
    Step s (.wake t) (s.setCall t (.returned true))

/-- The runs of a new signal. -/
def system (W : Type) : System (Signal W) (SignalEvent W) := ⟨(· = {}), Step⟩

@[simp] theorem waitings_setWaiting (s : Signal W) (w : Nat) (waiting : Waiting W) :
    (s.setWaiting w waiting).waitings = Function.update s.waitings w (some waiting) := rfl

@[simp] theorem calls_setWaiting (s : Signal W) (w : Nat) (waiting : Waiting W) :
    (s.setWaiting w waiting).calls = s.calls := rfl

@[simp] theorem slots_setWaiting (s : Signal W) (w : Nat) (waiting : Waiting W) :
    (s.setWaiting w waiting).slots = s.slots := rfl

@[simp] theorem triggered_setWaiting (s : Signal W) (w : Nat) (waiting : Waiting W) :
    (s.setWaiting w waiting).triggered = s.triggered := rfl

@[simp] theorem woken_setWaiting (s : Signal W) (w : Nat) (waiting : Waiting W) :
    (s.setWaiting w waiting).woken = s.woken := rfl

theorem waitings_cases {s : Signal W} {w v : Nat} {waiting waiting' : Waiting W}
    (h : Function.update s.waitings w (some waiting) v = some waiting') :
    v = w ∧ waiting' = waiting ∨ v ≠ w ∧ s.waitings v = some waiting' := by
  by_cases hv : v = w
  · subst hv
    rw [Function.update_self] at h
    exact .inl ⟨rfl, (Option.some.inj h).symm⟩
  · rw [Function.update_of_ne hv] at h
    exact .inr ⟨hv, h⟩

/-- Every waiting that holds a slot has its latest waker registered there, and nobody else holds
that slot. -/
structure Held (s : Signal W) : Prop where
  own : ∀ w waiting i, s.waitings w = some waiting → waiting.holds = some i →
    ∃ waker, waiting.waker = some waker ∧ s.slots.Registered i waker
  apart : ∀ v w a b i, s.waitings v = some a → s.waitings w = some b → a.holds = some i →
    b.holds = some i → v = w
  sound : s.slots.Sound

/-- A step of one waiting keeps the list sound where it leaves the others' slots as they are. -/
theorem Held.set {s : Signal W} (h : s.Held) {w : Nat} {waiting : Waiting W} {slots : Slots W}
    (hown : ∀ i, waiting.holds = some i →
      ∃ waker, waiting.waker = some waker ∧ slots.Registered i waker)
    (hothers : ∀ v other i waker, v ≠ w → s.waitings v = some other → other.holds = some i →
      s.slots.Registered i waker → waiting.holds ≠ some i ∧ slots.Registered i waker)
    (hsound : slots.Sound) : Held { s.setWaiting w waiting with slots := slots } := by
  refine ⟨fun v other i hv hholds => ?_, fun u v a b i hu hv ha hb => ?_, hsound⟩
  · rcases waitings_cases hv with ⟨-, rfl⟩ | ⟨hne, hv⟩
    · exact hown i hholds
    · obtain ⟨waker, hwaker, hreg⟩ := h.own v other i hv hholds
      exact ⟨waker, hwaker, (hothers v other i waker hne hv hholds hreg).2⟩
  · rcases waitings_cases hu with ⟨rfl, rfl⟩ | ⟨hneu, hu₁⟩ <;>
      rcases waitings_cases hv with ⟨rfl, rfl⟩ | ⟨hnev, hv₁⟩
    · rfl
    · obtain ⟨waker, -, hreg⟩ := h.own v b i hv₁ hb
      exact absurd ha (hothers v b i waker hnev hv₁ hb hreg).1
    · obtain ⟨waker, -, hreg⟩ := h.own u a i hu₁ ha
      exact absurd hb (hothers u a i waker hneu hu₁ ha hreg).1
    · exact h.apart u v a b i hu₁ hv₁ ha hb

/-- A step that changes neither the slot nor the waker of its waiting. -/
theorem Held.move {s : Signal W} (h : s.Held) {w : Nat} {waiting waiting' : Waiting W}
    (hw : s.waitings w = some waiting) (hholds : waiting'.holds = waiting.holds)
    (hwaker : waiting'.waker = waiting.waker) : Held (s.setWaiting w waiting') := by
  refine @Held.set _ _ h _ _ s.slots (fun i hi => ?_) (fun v other i waker hne hv hi hreg => ?_)
    h.sound
  · rw [hwaker]
    exact h.own w waiting i hw (hholds ▸ hi)
  · exact ⟨fun heq => hne (h.apart v w other waiting i hv hw hi (hholds ▸ heq)), hreg⟩

theorem release_holds {waiting : Waiting W} {dropping : Bool}
    (h : waiting.holds = waiting.slot) : (waiting.release dropping).holds = waiting.holds := by
  obtain ⟨slot, waker, phase⟩ := waiting
  cases slot with
  | none => cases dropping <;> exact h.symm
  | some index => exact h.symm

theorem release_waker (waiting : Waiting W) (dropping : Bool) :
    (waiting.release dropping).waker = waiting.waker := by
  unfold Waiting.release
  split <;> rfl

theorem holds_of_idle {waiting : Waiting W} {last : Option W} (h : waiting.phase = .idle last) :
    waiting.holds = waiting.slot := by
  rw [Waiting.holds, h]

theorem holds_of_loaded {waiting : Waiting W} {waker : W} (h : waiting.phase = .loaded waker) :
    waiting.holds = waiting.slot := by
  rw [Waiting.holds, h]

theorem holds_of_registered {waiting : Waiting W} {waker : W}
    (h : waiting.phase = .registered waker) : waiting.holds = waiting.slot := by
  rw [Waiting.holds, h]

/-- Until the list is drained, every step keeps it sound. -/
theorem Held.step {s s' : Signal W} {e : SignalEvent W} (h : s.Held) (hstep : Step s e s')
    (hdrain : ∀ t, e ≠ .drain t) : s'.Held := by
  cases hstep with
  | @wait w hnone =>
    refine @Held.set _ _ h _ _ s.slots (fun i hi => by cases hi) (fun v other i waker _ hv hi hreg => ?_)
      h.sound
    exact ⟨(by intro heq; cases heq), hreg⟩
  | loadSet hw hphase _ => exact h.move hw (release_holds (holds_of_idle hphase)) (release_waker ..)
  | load hw hphase _ => exact h.move hw (holds_of_idle hphase).symm rfl
  | @insert w waiting waker hw hphase hslot =>
    have hkeeps := fun j other hj => @Slots.insert_keeps _ _ h.sound waker j other hj
    refine h.set (fun i hi => ?_) (fun v other i old _ _ _ hreg => ?_)
      (Slots.insert_sound h.sound waker)
    · cases hi
      exact ⟨waker, rfl, Slots.insert_registered h.sound waker⟩
    · obtain ⟨hne, hreg⟩ := hkeeps i old hreg
      exact ⟨fun heq => hne (Option.some.inj heq).symm, hreg⟩
  | @replace w index waiting waker hw hphase hslot =>
    have hholds : waiting.holds = some index := (holds_of_loaded hphase).trans hslot
    obtain ⟨old, _, hold⟩ := h.own w waiting index hw hholds
    refine h.set (fun i hi => ?_) (fun v other i reg hne hv hi hreg => ?_)
      (Slots.replace_sound h.sound hold waker)
    · cases hi
      exact ⟨waker, rfl, Slots.replace_registered hold waker⟩
    · have hi' : i ≠ index := fun heq => hne (h.apart v w other waiting i hv hw hi (heq ▸ hholds))
      exact ⟨fun heq => hi' (Option.some.inj heq).symm, Slots.replace_keeps hi' waker hreg⟩
  | recheckSet hw hphase _ =>
    exact h.move hw (release_holds (holds_of_registered hphase)) (release_waker ..)
  | recheck hw hphase _ => exact h.move hw (holds_of_registered hphase).symm rfl
  | @release w index waiting dropping hw hphase =>
    have hholds : waiting.holds = some index := by rw [Waiting.holds, hphase]
    obtain ⟨old, _, hold⟩ := h.own w waiting index hw hholds
    refine h.set (fun i hi => ?_) (fun v other i reg hne hv hi hreg => ?_)
      (Slots.remove_sound h.sound hold)
    · cases dropping <;> cases hi
    · have hi' : i ≠ index := fun heq => hne (h.apart v w other waiting i hv hw hi (heq ▸ hholds))
      exact ⟨by cases dropping <;> nofun, Slots.remove_keeps hold hi' hreg⟩
  | drop hw hphase => exact h.move hw (release_holds (holds_of_idle hphase)) (release_waker ..)
  | swapSet => exact ⟨h.own, h.apart, h.sound⟩
  | swap => exact ⟨h.own, h.apart, h.sound⟩
  | @drain t => exact absurd rfl (hdrain t)
  | wake => exact ⟨h.own, h.apart, h.sound⟩
  | woken => exact ⟨h.own, h.apart, h.sound⟩

end Signal

namespace TriggerCall

variable {W : Type}

/-- The call that fired the signal. -/
def Fired : TriggerCall W → Prop
  | firing | waking _ | returned true => True
  | returned false => False

/-- The call has taken the registered wakers. -/
def Drained : TriggerCall W → Prop
  | waking _ | returned true => True
  | firing | returned false => False

/-- The wakers that the call still has to wake. -/
def rest : TriggerCall W → List W
  | waking rest => rest
  | firing | returned _ => []

theorem Drained.fired {call : TriggerCall W} (h : call.Drained) : call.Fired := by
  cases call with
  | firing => trivial
  | waking => trivial
  | returned fired =>
    cases fired with
    | false => exact h
    | true => trivial

end TriggerCall

namespace Signal

variable {W : Type}

/-- Behind its registration, and between two polls after a `Pending`, a waiting has the slot with
its latest waker. -/
def Kept (waiting : Waiting W) : Prop :=
  ∀ waker, waiting.phase = .registered waker ∨ waiting.phase = .idle (some waker) →
    waiting.waker = some waker ∧ waiting.slot ≠ none

theorem kept_release (waiting : Waiting W) (dropping : Bool) : Kept (waiting.release dropping) := by
  intro waker h
  unfold Waiting.release at h
  split at h
  · rcases h with h | h <;> cases h
  · cases dropping <;> rcases h with h | h <;> cases h

theorem release_not_pending (waiting : Waiting W) (dropping : Bool) (waker : W) :
    (waiting.release dropping).phase ≠ .idle (some waker) := by
  unfold Waiting.release
  split
  · nofun
  · cases dropping <;> nofun

/-- What a step of a poll or of a drop does besides its work on the list: it moves its own waiting,
and leaves that one pending only before the signal. -/
structure Moves (s s' : Signal W) (w : Nat) (waiting : Waiting W) : Prop where
  calls : s'.calls = s.calls
  triggered : s'.triggered = s.triggered
  woken : s'.woken = s.woken
  waitings : s'.waitings = Function.update s.waitings w (some waiting)
  pending : ∀ waker, waiting.phase = .idle (some waker) → s.triggered = false
  kept : (∀ old, s.waitings w = some old → Kept old) → Kept waiting

theorem step_moves {s s' : Signal W} {e : SignalEvent W} {w : Nat} (h : Step s e s')
    (he : e.waiting = some w) : ∃ waiting, Moves s s' w waiting := by
  cases h with
  | wait _ =>
    cases he
    refine ⟨_, rfl, rfl, rfl, rfl, nofun, fun _ waker h => ?_⟩
    rcases h with h | h <;> cases h
  | loadSet hw hphase hset =>
    cases he
    exact ⟨_, rfl, rfl, rfl, rfl, fun waker h => absurd h (release_not_pending _ _ waker),
      fun _ => kept_release _ _⟩
  | load hw hphase hset =>
    cases he
    refine ⟨_, rfl, rfl, rfl, rfl, nofun, fun _ waker h => ?_⟩
    rcases h with h | h <;> cases h
  | insert hw hphase hslot =>
    cases he
    refine ⟨_, rfl, rfl, rfl, rfl, nofun, fun _ waker h => ?_⟩
    rcases h with h | h <;> cases h
    exact ⟨rfl, nofun⟩
  | replace hw hphase hslot =>
    cases he
    refine ⟨_, rfl, rfl, rfl, rfl, nofun, fun _ waker h => ?_⟩
    rcases h with h | h <;> cases h
    exact ⟨rfl, nofun⟩
  | recheckSet hw hphase hset =>
    cases he
    exact ⟨_, rfl, rfl, rfl, rfl, fun waker h => absurd h (release_not_pending _ _ waker),
      fun _ => kept_release _ _⟩
  | recheck hw hphase hset =>
    cases he
    refine ⟨_, rfl, rfl, rfl, rfl, fun _ _ => hset, fun hold waker h => ?_⟩
    rcases h with h | h <;> cases h
    exact hold _ hw _ (.inl hphase)
  | @release _ index waiting dropping hw hphase =>
    cases he
    refine ⟨_, rfl, rfl, rfl, rfl, ?_, fun _ waker h => ?_⟩
    · cases dropping <;> nofun
    · cases dropping <;> rcases h with h | h <;> cases h
  | drop hw hphase =>
    cases he
    exact ⟨_, rfl, rfl, rfl, rfl, fun waker h => absurd h (release_not_pending _ _ waker),
      fun _ => kept_release _ _⟩
  | swapSet => cases he
  | swap => cases he
  | drain => cases he
  | wake => cases he
  | woken => cases he

/-- What holds in every run: one call fires the signal; until it takes the wakers their list is
sound, and from then on each pending waiting's waker is woken or about to be. -/
structure Inv (s : Signal W) : Prop where
  fires : ∀ t call, s.calls t = some call → call.Fired → s.triggered = true
  once : ∀ t t' call call', s.calls t = some call → s.calls t' = some call' → call.Fired →
    call'.Fired → t = t'
  held : (∀ t call, s.calls t = some call → ¬ call.Drained) → s.Held
  kept : ∀ w waiting, s.waitings w = some waiting → Kept waiting
  reached : ∀ t call, s.calls t = some call → call.Drained → ∀ w waiting waker,
    s.waitings w = some waiting → waiting.phase = .idle (some waker) → waker ∈ s.woken ++ call.rest

theorem inv_init : Inv ({} : Signal W) where
  fires := nofun
  once := nofun
  held _ := ⟨nofun, fun _ _ _ _ _ hv => (nomatch hv), nofun, List.nodup_nil⟩
  kept := nofun
  reached := nofun

theorem Inv.move {s s' : Signal W} {e : SignalEvent W} {w : Nat} (h : s.Inv) (hstep : Step s e s')
    (he : e.waiting = some w) : s'.Inv := by
  obtain ⟨waiting, hmoves⟩ := step_moves hstep he
  refine ⟨fun t call ht hfired => ?_, fun t t' call call' ht ht' => ?_, fun hnone => ?_,
    fun v other hv => ?_, fun t call ht hdrained v other waker hv hphase => ?_⟩
  · rw [hmoves.calls] at ht
    rw [hmoves.triggered]
    exact h.fires t call ht hfired
  · rw [hmoves.calls] at ht ht'
    exact h.once t t' call call' ht ht'
  · rw [hmoves.calls] at hnone
    refine (h.held hnone).step hstep fun t heq => ?_
    rw [heq] at he
    cases he
  · rw [hmoves.waitings] at hv
    rcases waitings_cases hv with ⟨-, rfl⟩ | ⟨-, hv₁⟩
    · exact hmoves.kept fun old hold => h.kept w old hold
    · exact h.kept v other hv₁
  · rw [hmoves.calls] at ht
    rw [hmoves.waitings] at hv
    rw [hmoves.woken]
    rcases waitings_cases hv with ⟨-, rfl⟩ | ⟨-, hv₁⟩
    · have hunset := hmoves.pending waker hphase
      rw [h.fires t call ht hdrained.fired] at hunset
      cases hunset
    · exact h.reached t call ht hdrained v other waker hv₁ hphase

theorem calls_cases {s : Signal W} {t u : Nat} {call call' : TriggerCall W}
    (h : Function.update s.calls t (some call) u = some call') :
    u = t ∧ call' = call ∨ u ≠ t ∧ s.calls u = some call' := by
  by_cases hu : u = t
  · subst hu
    rw [Function.update_self] at h
    exact .inl ⟨rfl, (Option.some.inj h).symm⟩
  · rw [Function.update_of_ne hu] at h
    exact .inr ⟨hu, h⟩

/-- A step of a call that leaves the waitings alone. -/
theorem Inv.call {s s' : Signal W} {t : Nat} {call : TriggerCall W} (h : s.Inv)
    (hcalls : s'.calls = Function.update s.calls t (some call))
    (hwaitings : s'.waitings = s.waitings) (hset : s.triggered = true → s'.triggered = true)
    (hfires : call.Fired → s'.triggered = true ∧
      ∀ u other, u ≠ t → s.calls u = some other → ¬ other.Fired)
    (hslots : ¬ call.Drained → s'.slots = s.slots ∧
      ∀ old, s.calls t = some old → ¬ old.Drained)
    (hwoken : s.woken ⊆ s'.woken)
    (hreached : call.Drained → ∀ w waiting waker, s.waitings w = some waiting →
      waiting.phase = .idle (some waker) → waker ∈ s'.woken ++ call.rest) : s'.Inv := by
  refine ⟨fun u other hu hfired => ?_, fun u v a b hu hv ha hb => ?_, fun hnone => ?_,
    hwaitings ▸ h.kept, fun u other hu hdrained w waiting waker hw hphase => ?_⟩
  · rw [hcalls] at hu
    rcases calls_cases hu with ⟨-, rfl⟩ | ⟨-, hu₁⟩
    · exact (hfires hfired).1
    · exact hset (h.fires u other hu₁ hfired)
  · rw [hcalls] at hu hv
    rcases calls_cases hu with ⟨rfl, rfl⟩ | ⟨hneu, hu₁⟩ <;>
      rcases calls_cases hv with ⟨rfl, rfl⟩ | ⟨hnev, hv₁⟩
    · rfl
    · exact absurd hb ((hfires ha).2 v b hnev hv₁)
    · exact absurd ha ((hfires hb).2 u a hneu hu₁)
    · exact h.once u v a b hu₁ hv₁ ha hb
  · rw [hcalls] at hnone
    obtain ⟨hsame, hold⟩ := hslots (hnone t call (Function.update_self ..))
    have hheld := h.held fun u other hu => by
      by_cases hut : u = t
      · subst hut
        exact hold other hu
      · exact hnone u other (by rw [Function.update_of_ne hut, hu])
    refine ⟨?_, ?_, hsame ▸ hheld.sound⟩
    · rw [hwaitings, hsame]
      exact hheld.own
    · rw [hwaitings]
      exact hheld.apart
  · rw [hcalls] at hu
    rw [hwaitings] at hw
    rcases calls_cases hu with ⟨-, rfl⟩ | ⟨-, hu₁⟩
    · exact hreached hdrained w waiting waker hw hphase
    · have hmem := h.reached u other hu₁ hdrained w waiting waker hw hphase
      rcases List.mem_append.mp hmem with hmem | hmem
      · exact List.mem_append_left _ (hwoken hmem)
      · exact List.mem_append_right _ hmem

theorem Inv.others_unfired {s : Signal W} {t : Nat} {call : TriggerCall W} (h : s.Inv)
    (ht : s.calls t = some call) (hfired : call.Fired) (u : Nat) (other : TriggerCall W)
    (hne : u ≠ t) (hu : s.calls u = some other) : ¬ other.Fired :=
  fun hother => hne (h.once u t other call hu ht hother hfired)

theorem Inv.unfired {s : Signal W} (h : s.Inv) (hunset : s.triggered = false) (u : Nat)
    (other : TriggerCall W) (hu : s.calls u = some other) : ¬ other.Fired := by
  intro hother
  have hset := h.fires u other hu hother
  rw [hunset] at hset
  cases hset

/-- A pending waiting's waker is among those that the firing call takes. -/
theorem Inv.taken {s : Signal W} {t : Nat} (h : s.Inv) (ht : s.calls t = some .firing) {w : Nat}
    {waiting : Waiting W} {waker : W} (hw : s.waitings w = some waiting)
    (hphase : waiting.phase = .idle (some waker)) : waker ∈ s.slots.entries.reduceOption := by
  have hheld := h.held fun u other hu hdrained => by
    obtain rfl := h.once u t other .firing hu ht hdrained.fired trivial
    rw [ht] at hu
    cases hu
    exact hdrained
  obtain ⟨hwaker, hslot⟩ := h.kept w waiting hw waker (.inr hphase)
  obtain ⟨i, hi⟩ := Option.ne_none_iff_exists'.mp hslot
  obtain ⟨registered, hreg, hentry⟩ := hheld.own w waiting i hw ((holds_of_idle hphase).trans hi)
  obtain rfl : waker = registered := Option.some.inj (hwaker.symm.trans hreg)
  exact List.reduceOption_mem_iff.mpr (List.mem_of_getElem? hentry)

theorem Inv.step {s s' : Signal W} {e : SignalEvent W} (h : s.Inv) (hstep : Step s e s') :
    s'.Inv := by
  cases he : e.waiting with
  | some w => exact h.move hstep he
  | none =>
    cases hstep with
    | swapSet hcall hset =>
      exact h.call rfl rfl id nofun (fun _ => ⟨rfl, by simp [hcall]⟩) (List.Subset.refl _) nofun
    | swap hcall hunset =>
      exact h.call rfl rfl (fun _ => rfl) (fun _ => ⟨rfl, fun u other _ => h.unfired hunset u other⟩)
        (fun _ => ⟨rfl, by simp [hcall]⟩) (List.Subset.refl _) nofun
    | drain hcall =>
      refine h.call rfl rfl id
        (fun _ => ⟨h.fires _ _ hcall trivial, h.others_unfired hcall trivial⟩)
        (fun hnot => absurd trivial hnot) (List.Subset.refl _)
        fun _ w waiting waker hw hphase => ?_
      exact List.mem_append_right _ (h.taken hcall hw hphase)
    | @wake t waker rest hcall =>
      refine h.call rfl rfl id
        (fun _ => ⟨h.fires _ _ hcall trivial, h.others_unfired hcall trivial⟩)
        (fun hnot => absurd trivial hnot) (List.subset_append_left ..)
        fun _ w waiting waker' hw hphase => ?_
      have hmem := h.reached _ _ hcall trivial w waiting waker' hw hphase
      simpa [TriggerCall.rest] using hmem
    | woken hcall =>
      refine h.call rfl rfl id
        (fun _ => ⟨h.fires _ _ hcall trivial, h.others_unfired hcall trivial⟩)
        (fun hnot => absurd trivial hnot) (List.Subset.refl _)
        fun _ w waiting waker hw hphase => ?_
      exact h.reached _ _ hcall trivial w waiting waker hw hphase
    | _ => cases he

theorem inv_of_reachable {s : Signal W} (h : (system W).Reachable s) : s.Inv :=
  h.invariant (fun _ hs => hs ▸ inv_init) fun _ _ _ hinv _ => hinv.step

/-- Once a call of `trigger` is so far, no waiting is left pending whose latest waker has not been
woken. -/
def ReachedBy (s : Signal W) (outcome : TriggerCall W) : Prop :=
  ∀ t w waiting waker, s.calls t = some outcome → s.waitings w = some waiting →
    waiting.phase = .idle (some waker) → waker ∈ s.woken

/-- A step of one waiting leaves the latest waker of each other one that has a slot in its place. -/
def Undisturbed (s : Signal W) : Prop :=
  ∀ e s' v w waiting i, Step s e s' → e.waiting = some v → v ≠ w →
    s.waitings w = some waiting → waiting.holds = some i →
    ∃ waker, waiting.waker = some waker ∧ s.slots.Registered i waker ∧ s'.slots.Registered i waker

theorem Inv.undisturbed {s : Signal W} (h : s.Inv) (hunset : s.triggered = false) :
    s.Undisturbed := by
  intro e s' v w waiting i hstep he hne hw hi
  have hheld := h.held fun t call ht hdrained => h.unfired hunset t call ht hdrained.fired
  have hheld' := hheld.step hstep fun t heq => by
    rw [heq] at he
    cases he
  obtain ⟨moved, hmoves⟩ := step_moves hstep he
  have hw' : s'.waitings w = some waiting := by
    rw [hmoves.waitings, Function.update_of_ne hne.symm, hw]
  obtain ⟨waker, hwaker, hreg⟩ := hheld.own w waiting i hw hi
  obtain ⟨waker', hwaker', hreg'⟩ := hheld'.own w waiting i hw' hi
  obtain rfl : waker = waker' := Option.some.inj (hwaker.symm.trans hwaker')
  exact ⟨waker, hwaker, hreg, hreg'⟩

/-- The call that fires the signal returns when every waiting has been reached, and before the
signal no waiting disturbs another. -/
theorem waiters_reached (W : Type) :
    (∀ s : Signal W, (system W).Reachable s → s.ReachedBy (.returned true)) ∧
    ∀ s : Signal W, (system W).Reachable s → s.triggered = false → s.Undisturbed := by
  refine ⟨fun s hs t w waiting waker ht hw hphase => ?_, fun s hs hunset => ?_⟩
  · have hmem := (inv_of_reachable hs).reached t _ ht trivial w waiting waker hw hphase
    simpa [TriggerCall.rest] using hmem
  · exact (inv_of_reachable hs).undisturbed hunset

/-- A second call returns while the first one has not come to the wakers yet. -/
theorem not_waiters_reached : ¬ ∀ (W : Type),
    (∀ s : Signal W, (system W).Reachable s → ∀ fired, s.ReachedBy (.returned fired)) ∧
    ∀ s : Signal W, (system W).Reachable s → s.triggered = false → s.Undisturbed := by
  intro h
  have h₀ : (system Unit).Reachable {} := .start rfl
  have h₁ := h₀.step trivial (.wait (w := 0) rfl)
  have h₂ := h₁.step trivial (@Step.load _ _ 0 _ _ () rfl rfl rfl)
  have h₃ := h₂.step trivial (.insert (w := 0) rfl rfl rfl)
  have h₄ := h₃.step trivial (.recheck (w := 0) rfl rfl rfl)
  have h₅ := h₄.step trivial (.swap (t := 0) rfl rfl)
  have h₆ := h₅.step trivial (.swapSet (t := 1) rfl rfl)
  have hwoken := (h Unit).1 _ h₆ false 1 0 _ () rfl rfl rfl
  cases hwoken

end Signal

end Kernway.Shutdown
