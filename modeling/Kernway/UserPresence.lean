import Kernway.Expiry
import Kernway.Str
import Kernway.Table
import Mathlib.Data.Char
import Mathlib.Data.List.Lex
import Mathlib.Data.Prod.Lex
import Mathlib.Data.Set.Card

namespace Kernway

/-- The time of the last beat of a device, in seconds, and what came with it. -/
abbrev Beat := Nat × Text

structure InMemoryUserPresence where
  windowSecs : Nat
  users : Table Text (Table Text Beat) := ∅

structure OnlineUser where
  user : Text
  devices : Nat
  deriving DecidableEq

structure DeviceSession where
  user : Text
  device : Text
  deviceMeta : Text
  lastSeen : Nat
  deriving DecidableEq

namespace InMemoryUserPresence

variable (presence : InMemoryUserPresence)

def since (now : Nat) : Nat := now - presence.windowSecs

def prune (now : Nat) : InMemoryUserPresence :=
  let trimmed := presence.users.mapWithKey fun _ devices =>
    devices.retain fun _ beat => decide (presence.since now ≤ beat.1)
  { presence with users := trimmed.retain fun _ devices => !devices.entries.isEmpty }

def heartbeat (user device deviceMeta : Text) (now : Nat) : InMemoryUserPresence :=
  let devices := (presence.users.lookup user).getD ∅
  { presence with users := presence.users.insert user (devices.insert device (now, deviceMeta)) }

def forget (user device : Text) : InMemoryUserPresence :=
  match presence.users.lookup user with
  | none => presence
  | some devices =>
    let rest := devices.erase device
    if rest.entries.isEmpty then { presence with users := presence.users.erase user }
    else { presence with users := presence.users.insert user rest }

def count (now : Nat) : Nat × InMemoryUserPresence :=
  let pruned := presence.prune now
  (pruned.users.entries.length, pruned)

def devices (user : Text) (now : Nat) : Nat × InMemoryUserPresence :=
  let pruned := presence.prune now
  (((pruned.users.lookup user).map fun devices => devices.entries.length).getD 0, pruned)

def isOnline (user : Text) (now : Nat) : Bool × InMemoryUserPresence :=
  let pruned := presence.prune now
  ((pruned.users.lookup user).isSome, pruned)

def online (now : Nat) : List OnlineUser × InMemoryUserPresence :=
  let pruned := presence.prune now
  let list := pruned.users.entries.map fun e => ⟨e.1, e.2.entries.length⟩
  (list.mergeSort fun a b => decide (a.user ≤ b.user), pruned)

def sessions (now : Nat) : List DeviceSession × InMemoryUserPresence :=
  let pruned := presence.prune now
  let list := pruned.users.entries.flatMap fun e =>
    e.2.entries.map fun d => ⟨e.1, d.1, d.2.2, d.2.1⟩
  (list.mergeSort fun a b => decide (a.user < b.user ∨ a.user = b.user ∧ a.device ≤ b.device),
    pruned)

end InMemoryUserPresence

inductive PresenceCall
  | heartbeat (user device deviceMeta : Text) (now : Nat)
  | forget (user device : Text)
  | count (now : Nat)
  | devices (user : Text) (now : Nat)
  | isOnline (user : Text) (now : Nat)
  | online (now : Nat)
  | sessions (now : Nat)

namespace PresenceCall

def time : PresenceCall → Option Nat
  | heartbeat _ _ _ now => some now
  | forget _ _ => none
  | count now => some now
  | devices _ now => some now
  | isOnline _ now => some now
  | online now => some now
  | sessions now => some now

def after (presence : InMemoryUserPresence) : PresenceCall → InMemoryUserPresence
  | heartbeat user device deviceMeta now => presence.heartbeat user device deviceMeta now
  | forget user device => presence.forget user device
  | count now => (presence.count now).2
  | devices user now => (presence.devices user now).2
  | isOnline user now => (presence.isOnline user now).2
  | online now => (presence.online now).2
  | sessions now => (presence.sessions now).2

end PresenceCall

/-- The last heartbeat of each user and device after their last `forget`. -/
abbrev Beats := Text × Text → Option Beat

namespace Beats

def after (beats : Beats) : PresenceCall → Beats
  | .heartbeat user device deviceMeta now => fun key =>
    if key = (user, device) then some (now, deviceMeta) else beats key
  | .forget user device => fun key => if key = (user, device) then none else beats key
  | _ => beats

def last (calls : List PresenceCall) : Beats := calls.foldl after fun _ => none

def live (window now : Nat) (beat : Beat) : Bool := decide (now - window ≤ beat.1)

/-- The devices of a user whose beat is within the window. -/
def devices (beats : Beats) (window now : Nat) (user : Text) : Set Text :=
  {device | ∃ beat, beats (user, device) = some beat ∧ now - window ≤ beat.1}

def users (beats : Beats) (window now : Nat) : Set Text :=
  {user | (beats.devices window now user).Nonempty}

end Beats

namespace InMemoryUserPresence

/-- What the reads at one time answer, of the beats that there were. -/
structure Shows (presence : InMemoryUserPresence) (beats : Beats) (now : Nat) : Prop where
  devices : ∀ user, ((presence.devices user now).1 : ℕ∞) =
    (beats.devices presence.windowSecs now user).encard
  isOnline : ∀ user, (presence.isOnline user now).1 = true ↔ 0 < (presence.devices user now).1
  count : ((presence.count now).1 : ℕ∞) = (beats.users presence.windowSecs now).encard
  online : ∀ entry, entry ∈ (presence.online now).1 ↔
    0 < entry.devices ∧
      (entry.devices : ℕ∞) = (beats.devices presence.windowSecs now entry.user).encard
  onlineSorted : ((presence.online now).1.map OnlineUser.user).Pairwise (· < ·)
  sessions : ∀ entry, entry ∈ (presence.sessions now).1 ↔
    beats (entry.user, entry.device) = some (entry.lastSeen, entry.deviceMeta) ∧
      now - presence.windowSecs ≤ entry.lastSeen
  sessionsSorted : (presence.sessions now).1.Pairwise fun a b =>
    a.user < b.user ∨ a.user = b.user ∧ a.device < b.device

/-- The two levels of the map as one. -/
def held (presence : InMemoryUserPresence) : Beats := fun key =>
  (presence.users.lookup key.1).bind fun devices => devices.lookup key.2

/-- No user is left without a device. -/
def Populated (presence : InMemoryUserPresence) : Prop :=
  ∀ user devices, presence.users.lookup user = some devices → devices.entries ≠ []

end InMemoryUserPresence

theorem Beats.live_dies (window : Nat) : Dies (Beats.live window) := by
  intro now later beat hle h
  have hlater : later - window ≤ beat.1 := of_decide_eq_true h
  exact decide_eq_true (by omega)

namespace InMemoryUserPresence

variable {presence : InMemoryUserPresence} {beats : Beats} {now : Nat}

theorem lookup_prune (user : Text) :
    (presence.prune now).users.lookup user =
      ((presence.users.lookup user).map fun devices =>
        devices.retain fun _ beat => decide (presence.since now ≤ beat.1)).filter
          fun devices => !devices.entries.isEmpty := by
  unfold prune
  rw [Table.lookup_retain, Table.lookup_mapWithKey]

theorem populated_prune : (presence.prune now).Populated := by
  intro user devices h
  rw [lookup_prune, Option.filter_eq_some_iff] at h
  intro hempty
  rw [hempty] at h
  cases h.2

/-- A prune drops the dead beats, and with them nothing of the live ones. -/
theorem held_prune (key : Text × Text) :
    (presence.prune now).held key = (presence.held key).filter (Beats.live presence.windowSecs now) := by
  unfold held
  rw [lookup_prune]
  cases presence.users.lookup key.1 with
  | none => rfl
  | some devices =>
    rw [Option.map_some, Option.bind_some]
    have hretain : (devices.retain fun _ beat => decide (presence.since now ≤ beat.1)).lookup key.2 =
        (devices.lookup key.2).filter (Beats.live presence.windowSecs now) :=
      Table.lookup_retain devices _ key.2
    rw [← hretain, Option.filter_some]
    split
    next => rfl
    next hempty =>
      have hnil : (devices.retain fun _ beat => decide (presence.since now ≤ beat.1)) = ∅ := by
        apply AList.ext
        exact List.isEmpty_iff.mp (by simpa using hempty)
      rw [hnil]
      rfl

theorem held_heartbeat (user device deviceMeta : Text) (now : Nat) (key : Text × Text) :
    (presence.heartbeat user device deviceMeta now).held key =
      if key = (user, device) then some (now, deviceMeta) else presence.held key := by
  obtain ⟨user', device'⟩ := key
  unfold held heartbeat
  dsimp only
  rw [Table.lookup_insert_eq]
  by_cases huser : user' = user
  · subst huser
    rw [if_pos rfl, Option.bind_some, Table.lookup_insert_eq]
    by_cases hdevice : device' = device
    · rw [if_pos hdevice, if_pos (by rw [hdevice])]
    · have hne : (user', device') ≠ (user', device) := fun h => hdevice (Prod.mk.inj h).2
      rw [if_neg hdevice, if_neg hne]
      cases presence.users.lookup user' <;> rfl
  · have hne : (user', device') ≠ (user, device) := fun h => huser (Prod.mk.inj h).1
    rw [if_neg huser, if_neg hne]

theorem held_forget (user device : Text) (key : Text × Text) :
    (presence.forget user device).held key =
      if key = (user, device) then none else presence.held key := by
  obtain ⟨user', device'⟩ := key
  unfold forget
  cases hlook : presence.users.lookup user with
  | none =>
    dsimp only
    split
    next heq =>
      obtain ⟨rfl, rfl⟩ := Prod.mk.inj heq
      unfold held
      rw [hlook]
      rfl
    next => rfl
  | some devices =>
    dsimp only
    have herase := Table.lookup_erase_eq devices device device'
    by_cases huser : user' = user
    · subst huser
      have hkey : ((user', device') = (user', device)) = (device' = device) := by simp
      have hheld : presence.held (user', device') = devices.lookup device' := by
        unfold held
        rw [hlook]
        rfl
      rw [hheld, if_congr (iff_of_eq hkey) rfl rfl, ← herase]
      split
      next hempty =>
        have hnil : devices.erase device = ∅ := AList.ext (List.isEmpty_iff.mp hempty)
        unfold held
        dsimp only
        rw [AList.lookup_erase, hnil]
        rfl
      next =>
        unfold held
        dsimp only
        rw [AList.lookup_insert]
        rfl
    · have hne : (user', device') ≠ (user, device) := fun h => huser (Prod.mk.inj h).1
      rw [if_neg hne]
      unfold held
      split
      next => rw [AList.lookup_erase_ne huser]
      next => rw [AList.lookup_insert_ne huser]

theorem windowSecs_after (call : PresenceCall) :
    (call.after presence).windowSecs = presence.windowSecs := by
  cases call with
  | forget user device =>
    show (presence.forget user device).windowSecs = _
    unfold forget
    split
    next => rfl
    next =>
      dsimp only
      split <;> rfl
  | _ => rfl

/-- One call, at its time. -/
theorem lags_after {call : PresenceCall} {window : Nat} (hwindow : presence.windowSecs = window)
    (htime : ∀ t, call.time = some t → t = now)
    (h : Lags (Beats.live window) now presence.held beats) :
    Lags (Beats.live window) now (call.after presence).held (beats.after call) := by
  subst hwindow
  have hprune : Lags (Beats.live presence.windowSecs) now (presence.prune now).held beats :=
    h.drop held_prune
  cases call with
  | heartbeat user device deviceMeta t =>
    cases htime t rfl
    exact h.set (held_heartbeat user device deviceMeta now) fun _ => rfl
  | forget user device => exact h.set (held_forget user device) fun _ => rfl
  | count t =>
    cases htime t rfl
    exact hprune
  | devices user t =>
    cases htime t rfl
    exact hprune
  | isOnline user t =>
    cases htime t rfl
    exact hprune
  | online t =>
    cases htime t rfl
    exact hprune
  | sessions t =>
    cases htime t rfl
    exact hprune

/-- A tracker after some calls. -/
def run (window : Nat) (calls : List PresenceCall) : InMemoryUserPresence :=
  calls.foldl PresenceCall.after { windowSecs := window }

theorem windowSecs_run (window : Nat) (calls : List PresenceCall) :
    (run window calls).windowSecs = window := by
  have hall : ∀ (calls : List PresenceCall) (presence : InMemoryUserPresence),
      (calls.foldl PresenceCall.after presence).windowSecs = presence.windowSecs := by
    intro calls
    induction calls with
    | nil => exact fun _ => rfl
    | cons call calls ih =>
      intro presence
      rw [List.foldl_cons, ih, windowSecs_after]
  exact hall calls _

theorem lags_run {window : Nat} {calls : List PresenceCall}
    (htimed : Timed PresenceCall.time calls now) :
    Lags (Beats.live window) now (run window calls).held (Beats.last calls) := by
  have hinv : ∀ (presence : InMemoryUserPresence) call, presence.windowSecs = window →
      (PresenceCall.after presence call).windowSecs = window :=
    fun _ call h => (windowSecs_after call).trans h
  have hstep : ∀ (presence : InMemoryUserPresence) beats now call, presence.windowSecs = window →
      (∀ t, PresenceCall.time call = some t → t = now) →
      Lags (Beats.live window) now presence.held beats →
      Lags (Beats.live window) now (call.after presence).held (Beats.after beats call) :=
    fun _ _ _ _ hwindow htime h => lags_after hwindow htime h
  exact Lags.run (s := { windowSecs := window }) (fun s : InMemoryUserPresence => s.windowSecs = window)
    (Beats.live_dies window) hinv hstep rfl htimed

/-- What a read at `now` finds are the live beats. -/
theorem held_read (h : Lags (Beats.live presence.windowSecs) now presence.held beats)
    (user device : Text) (beat : Beat) :
    (presence.prune now).held (user, device) = some beat ↔
      beats (user, device) = some beat ∧ now - presence.windowSecs ≤ beat.1 := by
  rw [held_prune, h.filter_eq, Option.filter_eq_some_iff]
  exact and_congr_right fun _ => decide_eq_true_iff

end InMemoryUserPresence

/-- Lists without duplicates have as many elements as there are. -/
theorem encard_eq_length {α : Type} [DecidableEq α] {s : Set α} {l : List α} (hnodup : l.Nodup)
    (hmem : ∀ a, a ∈ l ↔ a ∈ s) : s.encard = l.length := by
  have hs : s = (l.toFinset : Set α) := by
    ext a
    rw [List.coe_toFinset]
    exact (hmem a).symm
  rw [hs, Set.encard_coe_eq_coe_finsetCard, List.toFinset_card_of_nodup hnodup]

/-- A list that is sorted with pairwise different keys is sorted strictly. -/
theorem sorted_strictly {α κ : Type} [LinearOrder κ] (key : α → κ) {l : List α}
    (hne : (l.map key).Nodup) :
    ((l.mergeSort fun a b => decide (key a ≤ key b)).map key).Pairwise (· < ·) := by
  have hperm : ((l.mergeSort fun a b => decide (key a ≤ key b)).map key).Perm (l.map key) :=
    (List.mergeSort_perm l _).map key
  have hsorted : (l.mergeSort fun a b => decide (key a ≤ key b)).Pairwise
      fun a b => decide (key a ≤ key b) = true := by
    apply List.pairwise_mergeSort
    · intro a b c hab hbc
      exact decide_eq_true (le_trans (of_decide_eq_true hab) (of_decide_eq_true hbc))
    · intro a b
      rw [Bool.or_eq_true, decide_eq_true_iff, decide_eq_true_iff]
      exact le_total (key a) (key b)
  have hle : ((l.mergeSort fun a b => decide (key a ≤ key b)).map key).Pairwise (· ≤ ·) := by
    rw [List.pairwise_map]
    exact hsorted.imp of_decide_eq_true
  exact (hle.and (hperm.nodup_iff.mpr hne)).imp fun ⟨h, hne⟩ => lt_of_le_of_ne h hne

namespace InMemoryUserPresence

variable {presence : InMemoryUserPresence} {beats : Beats} {now : Nat}

/-- A pruned map, as the beats that it holds. -/
structure Pruned (presence : InMemoryUserPresence) (window now : Nat) (beats : Beats) :
    Prop where
  populated : presence.Populated
  held : ∀ user device beat, presence.held (user, device) = some beat ↔
    beats (user, device) = some beat ∧ now - window ≤ beat.1

namespace Pruned

variable {window : Nat}

theorem mem_devices (h : presence.Pruned window now beats) {user : Text} {devices : Table Text Beat}
    (hlook : presence.users.lookup user = some devices) (device : Text) :
    device ∈ devices.keys ↔ device ∈ beats.devices window now user := by
  have hheld : presence.held (user, device) = devices.lookup device := by
    unfold InMemoryUserPresence.held
    rw [hlook]
    rfl
  rw [← AList.mem_keys, ← AList.lookup_isSome, Option.isSome_iff_exists]
  unfold Beats.devices
  exact exists_congr fun beat => by rw [← hheld, h.held]

theorem encard_devices (h : presence.Pruned window now beats) {user : Text}
    {devices : Table Text Beat} (hlook : presence.users.lookup user = some devices) :
    (beats.devices window now user).encard = devices.entries.length := by
  rw [encard_eq_length devices.keys_nodup (h.mem_devices hlook)]
  simp [AList.keys, List.keys]

theorem devices_nonempty (h : presence.Pruned window now beats) {user : Text}
    {devices : Table Text Beat} (hlook : presence.users.lookup user = some devices) :
    0 < devices.entries.length :=
  List.length_pos_iff.mpr (h.populated user devices hlook)

theorem mem_users (h : presence.Pruned window now beats) (user : Text) :
    user ∈ presence.users.keys ↔ user ∈ beats.users window now := by
  rw [← AList.mem_keys, ← AList.lookup_isSome, Option.isSome_iff_exists]
  constructor
  · rintro ⟨devices, hlook⟩
    obtain ⟨d, hd⟩ := List.exists_mem_of_length_pos (h.devices_nonempty hlook)
    exact ⟨d.1, (h.mem_devices hlook d.1).mp (List.mem_map_of_mem hd)⟩
  · rintro ⟨device, beat, hbeat⟩
    have hheld := (h.held user device beat).mpr hbeat
    unfold InMemoryUserPresence.held at hheld
    obtain ⟨devices, hlook, _⟩ := Option.bind_eq_some_iff.mp hheld
    exact ⟨devices, hlook⟩

theorem no_devices (h : presence.Pruned window now beats) {user : Text}
    (hlook : presence.users.lookup user = none) : beats.devices window now user = ∅ := by
  apply Set.eq_empty_of_forall_notMem
  intro device hdevice
  have huser : user ∈ presence.users.keys := (h.mem_users user).mpr ⟨device, hdevice⟩
  rw [← AList.mem_keys, ← AList.lookup_isSome, hlook] at huser
  cases huser

theorem length_devices (h : presence.Pruned window now beats) (user : Text) :
    ((((presence.users.lookup user).map fun devices => devices.entries.length).getD 0 : Nat) : ℕ∞) =
      (beats.devices window now user).encard := by
  cases hlook : presence.users.lookup user with
  | none =>
    rw [h.no_devices hlook, Set.encard_empty]
    rfl
  | some devices =>
    rw [h.encard_devices hlook]
    rfl

theorem isSome_iff (h : presence.Pruned window now beats) (user : Text) :
    (presence.users.lookup user).isSome = true ↔
      0 < ((presence.users.lookup user).map fun devices => devices.entries.length).getD 0 := by
  cases hlook : presence.users.lookup user with
  | none => simp
  | some devices => exact iff_of_true rfl (h.devices_nonempty hlook)

theorem length_users (h : presence.Pruned window now beats) :
    (presence.users.entries.length : ℕ∞) = (beats.users window now).encard := by
  rw [encard_eq_length presence.users.keys_nodup h.mem_users]
  simp [AList.keys, List.keys]

theorem mem_online (h : presence.Pruned window now beats) (entry : OnlineUser) :
    (∃ e ∈ presence.users.entries, OnlineUser.mk e.1 e.2.entries.length = entry) ↔
      0 < entry.devices ∧
        (entry.devices : ℕ∞) = (beats.devices window now entry.user).encard := by
  constructor
  · rintro ⟨e, he, rfl⟩
    have hlook : presence.users.lookup e.1 = some e.2 := AList.mem_lookup_iff.mpr he
    exact ⟨h.devices_nonempty hlook, (h.encard_devices hlook).symm⟩
  · rintro ⟨hpos, hcount⟩
    cases hlook : presence.users.lookup entry.user with
    | none =>
      rw [h.no_devices hlook, Set.encard_empty] at hcount
      have hzero : entry.devices = 0 := by exact_mod_cast hcount
      omega
    | some devices =>
      rw [h.encard_devices hlook] at hcount
      have heq : entry.devices = devices.entries.length := by exact_mod_cast hcount
      refine ⟨⟨entry.user, devices⟩, AList.mem_lookup_iff.mp hlook, ?_⟩
      rw [← heq]

theorem mem_sessions (h : presence.Pruned window now beats) (entry : DeviceSession) :
    (∃ e ∈ presence.users.entries, ∃ d ∈ e.2.entries,
        DeviceSession.mk e.1 d.1 d.2.2 d.2.1 = entry) ↔
      beats (entry.user, entry.device) = some (entry.lastSeen, entry.deviceMeta) ∧
        now - window ≤ entry.lastSeen := by
  rw [← h.held entry.user entry.device (entry.lastSeen, entry.deviceMeta)]
  unfold InMemoryUserPresence.held
  rw [Option.bind_eq_some_iff]
  constructor
  · rintro ⟨e, he, d, hd, rfl⟩
    exact ⟨e.2, AList.mem_lookup_iff.mpr he, AList.mem_lookup_iff.mpr hd⟩
  · rintro ⟨devices, hlook, hbeat⟩
    exact ⟨⟨entry.user, devices⟩, AList.mem_lookup_iff.mp hlook,
      ⟨entry.device, entry.lastSeen, entry.deviceMeta⟩, AList.mem_lookup_iff.mp hbeat, rfl⟩

theorem nodup_sessions (presence : InMemoryUserPresence) :
    ((presence.users.entries.flatMap fun e => e.2.entries.map fun d =>
      DeviceSession.mk e.1 d.1 d.2.2 d.2.1).map fun a => toLex (a.user, a.device)).Nodup := by
  rw [List.map_flatMap, List.Nodup, List.pairwise_flatMap]
  constructor
  · intro e _
    have hkeys : (e.2.entries.map Sigma.fst).Nodup := e.2.keys_nodup
    have hmap : (e.2.entries.map fun d => DeviceSession.mk e.1 d.1 d.2.2 d.2.1).map
        (fun a => toLex (a.user, a.device)) =
        (e.2.entries.map Sigma.fst).map fun device => toLex (e.1, device) := by
      rw [List.map_map, List.map_map]
      rfl
    rw [hmap]
    exact hkeys.map fun _ _ h => (Prod.mk.inj (toLex.injective h)).2
  · have hkeys : presence.users.entries.Pairwise fun a b => a.1 ≠ b.1 :=
      List.nodupKeys_iff_pairwise.mp presence.users.nodupKeys
    refine hkeys.imp fun {a b} hne x hx y hy heq => hne ?_
    simp only [List.mem_map] at hx hy
    obtain ⟨_, ⟨_, _, rfl⟩, rfl⟩ := hx
    obtain ⟨_, ⟨_, _, rfl⟩, rfl⟩ := hy
    exact (Prod.mk.inj (toLex.injective heq)).1

end Pruned

theorem pruned_prune (h : Lags (Beats.live presence.windowSecs) now presence.held beats) :
    (presence.prune now).Pruned presence.windowSecs now beats :=
  ⟨populated_prune, held_read h⟩

theorem shows_of_lags (h : Lags (Beats.live presence.windowSecs) now presence.held beats) :
    presence.Shows beats now := by
  have hp := pruned_prune h
  refine ⟨hp.length_devices, hp.isSome_iff, hp.length_users, fun entry => ?_, ?_, fun entry => ?_,
    ?_⟩
  · rw [← hp.mem_online entry]
    unfold online
    rw [List.mem_mergeSort, List.mem_map]
  · apply sorted_strictly OnlineUser.user
    rw [List.map_map]
    exact (presence.prune now).users.keys_nodup
  · rw [← hp.mem_sessions entry]
    unfold sessions
    dsimp only
    rw [List.mem_mergeSort, List.mem_flatMap]
    simp only [List.mem_map]
  · have hsorted := sorted_strictly (fun a : DeviceSession => toLex (a.user, a.device))
      (Pruned.nodup_sessions (presence.prune now))
    rw [List.pairwise_map] at hsorted
    simp only [Prod.Lex.toLex_le_toLex, Prod.Lex.toLex_lt_toLex] at hsorted
    exact hsorted

end InMemoryUserPresence

/-- After any calls, the reads show the beats that there were. Each read is itself a call, so that
its prune shows in no later one. -/
theorem presence_run (window : Nat) (calls : List PresenceCall) (now : Nat)
    (h : Timed PresenceCall.time calls now) :
    (InMemoryUserPresence.run window calls).windowSecs = window ∧
      (InMemoryUserPresence.run window calls).Shows (Beats.last calls) now := by
  have hwindow := InMemoryUserPresence.windowSecs_run window calls
  refine ⟨hwindow, InMemoryUserPresence.shows_of_lags ?_⟩
  rw [hwindow]
  exact InMemoryUserPresence.lags_run h

/-- One of two devices logs out, and the other one is seen by a later read. -/
theorem presence_run_devices :
    ((InMemoryUserPresence.run 30 [.heartbeat ['a'] ['p'] [] 0, .heartbeat ['a'] ['q'] [] 20,
      .forget ['a'] ['p'], .count 40]).isOnline ['a'] 50).1 = true := by
  have h : Timed PresenceCall.time [.heartbeat ['a'] ['p'] [] 0, .heartbeat ['a'] ['q'] [] 20,
      .forget ['a'] ['p'], .count 40] 50 := by
    unfold Timed
    decide
  rw [(presence_run 30 _ 50 h).2.isOnline]
  decide

end Kernway
