import Kernway.IpText
import Kernway.ResponseLayers
import Kernway.Runs
import Kernway.SessionManager
import Kernway.Table

namespace Kernway

/-- A row of the activity list; `last_seen` is in seconds. -/
structure ActiveVisitor where
  id : Text
  authenticated : Bool
  ip : Option IpAddr
  userAgent : Option Text
  path : Text
  method : Text
  lastSeen : Nat
  deriving DecidableEq

structure InMemoryActivity where
  windowSecs : Nat
  visitors : Table Text ActiveVisitor := ∅

namespace InMemoryActivity

variable (activity : InMemoryActivity)

def since (now : Nat) : Nat := now - activity.windowSecs

def record (visitor : ActiveVisitor) : InMemoryActivity :=
  { activity with visitors := activity.visitors.insert visitor.id visitor }

def newestFirst (a b : ActiveVisitor) : Bool :=
  decide (b.lastSeen < a.lastSeen) || (a.lastSeen == b.lastSeen && decide (a.id ≤ b.id))

def active (now : Nat) : List ActiveVisitor × InMemoryActivity :=
  let visitors := activity.visitors.retain fun _ v => decide (activity.since now ≤ v.lastSeen)
  ((visitors.entries.map fun e => e.2).mergeSort newestFirst, { activity with visitors })

def count (now : Nat) : Nat :=
  (activity.visitors.entries.filter fun e => decide (activity.since now ≤ e.2.lastSeen)).length

end InMemoryActivity

/-- The request scope as the two layers use it, with the random bytes of the next visitor id. -/
structure TrackingScope where
  random : Bytes
  requestMeta : Option RequestMeta := none
  context : Option SecurityContext := none

def trackingEnv : LayerEnv TrackingScope where
  parseIp := IpAddr.parse
  codec := fun _ data => data
  newVisitorId := fun scope => (generate scope.random, scope)
  setMeta := fun requestMeta scope => { scope with requestMeta := some requestMeta }

namespace ActivityTracking

/-- The logged-in user if there is one, else the anonymous visitor id. -/
def identity (requestMeta : RequestMeta) (context : Option SecurityContext) : Text × Bool :=
  match context with
  | some c =>
    if c.authenticated then (c.principal.getD requestMeta.visitorId, true)
    else (requestMeta.visitorId, false)
  | none => (requestMeta.visitorId, false)

def visitor (requestMeta : RequestMeta) (context : Option SecurityContext) (time : Nat) :
    ActiveVisitor where
  id := (identity requestMeta context).1
  authenticated := (identity requestMeta context).2
  ip := requestMeta.ip
  userAgent := requestMeta.userAgent
  path := requestMeta.path
  method := requestMeta.method
  lastSeen := time

/-- What the layer records before the request goes on. -/
def handle (scope : TrackingScope) (time : Nat) (activity : InMemoryActivity) : InMemoryActivity :=
  match scope.requestMeta with
  | none => activity
  | some requestMeta => activity.record (visitor requestMeta scope.context time)

end ActivityTracking

/-- A request, the random bytes of a new visitor id, what an auth layer sets, and the clock. -/
structure TrackedRequest where
  request : Request
  random : Bytes
  context : Option SecurityContext
  time : Nat

namespace TrackedRequest

variable (tracking : VisitorTracking) (r : TrackedRequest)

/-- The scope behind `VisitorTracking` and the auth layer. -/
def scope : TrackingScope :=
  { tracking.enter trackingEnv r.request { random := r.random } with context := r.context }

def visitorId : Text := (VisitorTracking.visitor trackingEnv r.request { random := r.random }).1

/-- The user as whom the request is authenticated. -/
def user : Option Text := r.context.bind fun c => if c.authenticated then c.principal else none

/-- The data of the request, as it is recorded. -/
def row : ActiveVisitor :=
  ActivityTracking.visitor ⟨r.visitorId,
    clientIp IpAddr.parse r.request.remoteAddr (r.request.header "x-forwarded-for".toList)
      tracking.trusted,
    r.request.header "user-agent".toList, r.request.path, r.request.method⟩ r.context r.time

end TrackedRequest

inductive ActivityEvent
  | request (r : TrackedRequest)
  | active (now : Nat)
  | count (now : Nat)

/-- A run. `last` is the row of the last authenticated request of each user, and `readAt` the latest
time for which the list was read. -/
structure ActivityRun where
  activity : InMemoryActivity
  last : Text → Option ActiveVisitor := fun _ => none
  readAt : Nat := 0

namespace ActivityRun

def after (tracking : VisitorTracking) (s : ActivityRun) : ActivityEvent → ActivityRun
  | .request r =>
    { s with
      activity := ActivityTracking.handle (r.scope tracking) r.time s.activity
      last := fun u => if r.user = some u then some (r.row tracking) else s.last u }
  | .active now => { s with activity := (s.activity.active now).2, readAt := max s.readAt now }
  | .count _ => s

/-- The list, read at any time that is not before an earlier read, has for each user within the
window exactly the last authenticated request, and no other row under the id of a user. -/
structure Holds (s : ActivityRun) : Prop where
  shown : ∀ u v now, s.last u = some v → s.readAt ≤ now → s.activity.since now ≤ v.lastSeen →
    v.id = u ∧ v ∈ (s.activity.active now).1
  own : ∀ u v w now, s.last u = some v → s.readAt ≤ now → w ∈ (s.activity.active now).1 →
    w.id = u → w = v

end ActivityRun

def activitySystem (tracking : VisitorTracking) (window : Nat) :
    System ActivityRun ActivityEvent where
  start s := s = { activity := { windowSecs := window } }
  step s e s' := s' = s.after tracking e

/-- The visitor id of a request that is not a user's is no id that a user has. -/
def Distinct (s : ActivityRun) : ActivityEvent → Prop
  | .request r => r.user = none → s.last r.visitorId = none
  | _ => True

/-- `SecurityContext` has no constructor for an authenticated request without a principal. -/
def TrackedRequest.Constructed (r : TrackedRequest) : Prop :=
  ∀ c, r.context = some c → c.authenticated = c.principal.isSome

variable {tracking : VisitorTracking}

namespace TrackedRequest

variable {r : TrackedRequest}

theorem handle_scope (activity : InMemoryActivity) :
    ActivityTracking.handle (r.scope tracking) r.time activity =
      activity.record (r.row tracking) := rfl

theorem row_id_of_user {u : Text} (h : r.user = some u) : (r.row tracking).id = u := by
  obtain ⟨c, hc, huser⟩ := Option.bind_eq_some_iff.mp h
  split at huser
  next hauth =>
    show (ActivityTracking.identity _ r.context).1 = u
    rw [hc]
    unfold ActivityTracking.identity
    dsimp only
    rw [if_pos hauth, huser]
    rfl
  next => cases huser

theorem row_authenticated_of_user {u : Text} (h : r.user = some u) :
    (r.row tracking).authenticated = true := by
  obtain ⟨c, hc, huser⟩ := Option.bind_eq_some_iff.mp h
  split at huser
  next hauth =>
    show (ActivityTracking.identity _ r.context).2 = true
    rw [hc]
    unfold ActivityTracking.identity
    dsimp only
    rw [if_pos hauth]
  next => cases huser

theorem row_id_of_anonymous (h : r.user = none) : (r.row tracking).id = r.visitorId := by
  show (ActivityTracking.identity _ r.context).1 = r.visitorId
  cases hc : r.context with
  | none => rfl
  | some c =>
    have huser : (if c.authenticated then c.principal else none) = none := by
      unfold user at h
      rw [hc] at h
      exact h
    unfold ActivityTracking.identity
    dsimp only
    split
    next hauth =>
      rw [if_pos hauth] at huser
      rw [huser]
      rfl
    next => rfl

theorem row_not_authenticated (h : r.Constructed) (huser : r.user = none) :
    (r.row tracking).authenticated = false := by
  show (ActivityTracking.identity _ r.context).2 = false
  cases hc : r.context with
  | none => rfl
  | some c =>
    have hauth := h c hc
    unfold user at huser
    rw [hc, Option.bind_some] at huser
    unfold ActivityTracking.identity
    dsimp only
    split
    next htrue =>
      rw [if_pos htrue] at huser
      rw [htrue, huser] at hauth
      cases hauth
    next => rfl

end TrackedRequest

namespace InMemoryActivity

theorem mem_active {activity : InMemoryActivity} {now : Nat} {v : ActiveVisitor} :
    v ∈ (activity.active now).1 ↔
      ∃ id, activity.visitors.lookup id = some v ∧ activity.since now ≤ v.lastSeen := by
  unfold active
  dsimp only
  rw [List.mem_mergeSort, List.mem_map]
  constructor
  · rintro ⟨⟨id, w⟩, hmem, rfl⟩
    obtain ⟨hentry, hsince⟩ := List.mem_filter.mp hmem
    exact ⟨id, AList.mem_lookup_iff.mpr hentry, of_decide_eq_true hsince⟩
  · rintro ⟨id, hlook, hsince⟩
    exact ⟨⟨id, v⟩, List.mem_filter.mpr ⟨AList.mem_lookup_iff.mp hlook, decide_eq_true hsince⟩, rfl⟩

end InMemoryActivity

namespace ActivityRun

variable {s : ActivityRun}

/-- What a run keeps: a row is under its id; the row of a user is there unless a read has pruned it;
and no other row is there for a user. -/
structure Sound (s : ActivityRun) : Prop where
  keyed : ∀ id v, s.activity.visitors.lookup id = some v → v.id = id
  named : ∀ u v, s.last u = some v → v.id = u ∧ v.authenticated = true
  there : ∀ u v, s.last u = some v →
    s.activity.visitors.lookup u = some v ∨ v.lastSeen < s.activity.since s.readAt
  own : ∀ u v w, s.last u = some v → s.activity.visitors.lookup u = some w → w = v

theorem Sound.holds (h : s.Sound) : s.Holds where
  shown := by
    intro u v now hlast hread hsince
    refine ⟨(h.named u v hlast).1, InMemoryActivity.mem_active.mpr ⟨u, ?_, hsince⟩⟩
    refine (h.there u v hlast).resolve_right fun hpruned => ?_
    unfold InMemoryActivity.since at hpruned hsince
    omega
  own := by
    intro u v w now hlast _ hmem hid
    obtain ⟨id, hlook, _⟩ := InMemoryActivity.mem_active.mp hmem
    have hkey : id = u := (h.keyed id w hlook).symm.trans hid
    rw [hkey] at hlook
    exact h.own u v w hlast hlook

/-- A request replaces the row under its own id and no other. -/
theorem lookup_after_request (r : TrackedRequest) (id : Text) :
    (s.after tracking (.request r)).activity.visitors.lookup id =
      if id = (r.row tracking).id then some (r.row tracking)
      else s.activity.visitors.lookup id :=
  Table.lookup_insert_eq s.activity.visitors (r.row tracking).id id (r.row tracking)

/-- The row under the id of a user is replaced by that user's requests only. -/
theorem lookup_after_of_ne {r : TrackedRequest} (hdistinct : Distinct s (.request r)) {u : Text}
    {v : ActiveVisitor} (hlast : s.last u = some v) (hne : r.user ≠ some u) :
    (s.after tracking (.request r)).activity.visitors.lookup u =
      s.activity.visitors.lookup u := by
  have hid : u ≠ (r.row tracking).id := by
    intro hid
    cases huser : r.user with
    | some user =>
      rw [TrackedRequest.row_id_of_user huser] at hid
      rw [hid] at hne
      exact hne huser
    | none =>
      rw [TrackedRequest.row_id_of_anonymous huser] at hid
      rw [hid, hdistinct huser] at hlast
      cases hlast
  rw [lookup_after_request, if_neg hid]

theorem Sound.after_request (h : s.Sound) {r : TrackedRequest}
    (hdistinct : Distinct s (.request r)) : (s.after tracking (.request r)).Sound where
  keyed := by
    intro id v hlook
    rw [lookup_after_request] at hlook
    split at hlook
    next hid =>
      cases hlook
      exact hid.symm
    next => exact h.keyed id v hlook
  named := by
    intro u v hlast
    have hlast' : (if r.user = some u then some (r.row tracking) else s.last u) = some v := hlast
    split at hlast'
    next huser =>
      cases hlast'
      exact ⟨TrackedRequest.row_id_of_user huser, TrackedRequest.row_authenticated_of_user huser⟩
    next => exact h.named u v hlast'
  there := by
    intro u v hlast
    have hlast' : (if r.user = some u then some (r.row tracking) else s.last u) = some v := hlast
    split at hlast'
    next huser =>
      left
      rw [lookup_after_request, TrackedRequest.row_id_of_user huser, if_pos rfl, hlast']
    next hne =>
      rw [lookup_after_of_ne hdistinct hlast' hne]
      exact h.there u v hlast'
  own := by
    intro u v w hlast hlook
    have hlast' : (if r.user = some u then some (r.row tracking) else s.last u) = some v := hlast
    split at hlast'
    next huser =>
      rw [lookup_after_request, TrackedRequest.row_id_of_user huser, if_pos rfl, hlast'] at hlook
      exact (Option.some.inj hlook).symm
    next hne =>
      rw [lookup_after_of_ne hdistinct hlast' hne] at hlook
      exact h.own u v w hlast' hlook

theorem Sound.after_active (h : s.Sound) (now : Nat) : (s.after tracking (.active now)).Sound := by
  have hlookup : ∀ id, (s.after tracking (.active now)).activity.visitors.lookup id =
      (s.activity.visitors.lookup id).filter fun v => decide (s.activity.since now ≤ v.lastSeen) :=
    fun id => Table.lookup_retain _ _ id
  refine ⟨fun id v hlook => ?_, h.named, fun u v hlast => ?_, fun u v w hlast hlook => ?_⟩
  · rw [hlookup, Option.filter_eq_some_iff] at hlook
    exact h.keyed id v hlook.1
  · show _ ∨ v.lastSeen < s.activity.since (max s.readAt now)
    by_cases hsince : s.activity.since now ≤ v.lastSeen
    · refine (h.there u v hlast).imp (fun hlook => ?_) fun hpruned => ?_
      · rw [hlookup, hlook, Option.filter_eq_some_iff]
        exact ⟨rfl, decide_eq_true hsince⟩
      · unfold InMemoryActivity.since at hpruned ⊢
        omega
    · right
      unfold InMemoryActivity.since at hsince ⊢
      omega
  · rw [hlookup, Option.filter_eq_some_iff] at hlook
    exact h.own u v w hlast hlook.1

theorem Sound.after (h : s.Sound) {e : ActivityEvent} (hdistinct : Distinct s e) :
    (s.after tracking e).Sound := by
  cases e with
  | request r => exact h.after_request hdistinct
  | active now => exact h.after_active now
  | count now => exact h

/-- A visitor who takes the id of a user hides the user's row. -/
theorem not_holds {r : TrackedRequest} (hconstructed : r.Constructed) (htime : s.readAt ≤ r.time)
    (hs : s.Sound) (h : ¬ Distinct s (.request r)) : ¬ (s.after tracking (.request r)).Holds := by
  intro hholds
  obtain ⟨huser, v, hv⟩ : r.user = none ∧ ∃ v, s.last r.visitorId = some v := by
    unfold Distinct at h
    push Not at h
    exact ⟨h.1, Option.ne_none_iff_exists'.mp h.2⟩
  have hlast' : (s.after tracking (.request r)).last r.visitorId = some v := by
    show (if r.user = some r.visitorId then _ else s.last r.visitorId) = some v
    rw [huser, if_neg (by simp), hv]
  have hmem : r.row tracking ∈ ((s.after tracking (.request r)).activity.active r.time).1 := by
    refine InMemoryActivity.mem_active.mpr ⟨(r.row tracking).id, ?_, ?_⟩
    · rw [lookup_after_request, if_pos rfl]
    · exact Nat.sub_le r.time _
  have hsame := hholds.own r.visitorId v (r.row tracking) r.time hlast' htime hmem
    (TrackedRequest.row_id_of_anonymous huser)
  have hauth : (r.row tracking).authenticated = false :=
    TrackedRequest.row_not_authenticated hconstructed huser
  rw [hsame, (hs.named r.visitorId v hv).2] at hauth
  cases hauth

theorem sound_of_distinct {window : Nat} (h : (activitySystem tracking window).Reach Distinct s) :
    s.Sound := by
  refine System.Reach.invariant ?_ ?_ h
  · rintro _ rfl
    refine ⟨fun id v hlook => ?_, fun u v hlast => ?_, fun u v hlast => ?_, fun u v w hlast => ?_⟩
    · cases hlook
    all_goals cases hlast
  · rintro s e _ hs hdistinct rfl
    exact hs.after hdistinct

end ActivityRun

/-- The rows of users are right as long as no visitor has the id of a user. A request then leaves
the rows of the users it is not made as alone; and a visitor who does have the id of a user breaks
the list. -/
theorem activity_of_distinct (tracking : VisitorTracking) (window : Nat) (s : ActivityRun)
    (h : (activitySystem tracking window).Reach Distinct s) :
    s.Holds ∧
      (∀ r u, Distinct s (.request r) → s.last u ≠ none → r.user ≠ some u → ∀ now v, v.id = u →
        (v ∈ ((s.after tracking (.request r)).activity.active now).1 ↔
          v ∈ (s.activity.active now).1)) ∧
      ∀ r, r.Constructed → s.readAt ≤ r.time →
        ((s.after tracking (.request r)).Holds ↔ Distinct s (.request r)) := by
  have hs := ActivityRun.sound_of_distinct h
  refine ⟨hs.holds, fun r u hdistinct hlast hne now v hid => ?_, fun r hconstructed htime => ?_⟩
  · obtain ⟨row, hrow⟩ := Option.ne_none_iff_exists'.mp hlast
    have hsame : (s.after tracking (.request r)).activity.visitors.lookup u =
        s.activity.visitors.lookup u := ActivityRun.lookup_after_of_ne hdistinct hrow hne
    have hs' : (s.after tracking (.request r)).Sound := hs.after_request hdistinct
    rw [InMemoryActivity.mem_active, InMemoryActivity.mem_active]
    constructor
    · rintro ⟨id, hlook, hsince⟩
      have hkey := (hs'.keyed id v hlook).symm.trans hid
      rw [hkey, hsame] at hlook
      exact ⟨u, hlook, hsince⟩
    · rintro ⟨id, hlook, hsince⟩
      have hkey := (hs.keyed id v hlook).symm.trans hid
      rw [hkey, ← hsame] at hlook
      exact ⟨u, hlook, hsince⟩
  · constructor
    · intro hholds
      by_contra hdistinct
      exact ActivityRun.not_holds hconstructed htime hs hdistinct hholds
    · intro hdistinct
      exact (hs.after_request hdistinct).holds

/-- A request for a path, with a cookie header. -/
def visit (path cookies : Text) (context : Option SecurityContext) (time : Nat) :
    TrackedRequest where
  request :=
    { method := "GET".toList
      path := path
      version := .http11
      headers := (Fields.push {} "cookie".toList cookies).getD {}
      query := {}
      pathParams := []
      body := []
      bodySpool := none
      remoteAddr := none }
  random := List.replicate 32 7
  context := context
  time := time

def aliceVisit : TrackedRequest :=
  visit "/admin".toList "kw_visitor=5f".toList (some (.ofUser "alice".toList [])) 5

/-- The request of a user is shown. -/
theorem activity_of_distinct_user :
    (ActivityRun.after ⟨[]⟩ { activity := { windowSecs := 60 } } (.request aliceVisit)).Holds := by
  refine (activity_of_distinct ⟨[]⟩ 60 _ ?_).1
  refine .step (.start rfl) ?_ rfl
  intro huser
  cases huser

/-- Whatever cookies the visitors send, the rows of users are right. -/
def NeverHidden : Prop :=
  ∀ (tracking : VisitorTracking) (window : Nat) (s : ActivityRun),
    (activitySystem tracking window).Reach (fun _ _ => True) s → s.Holds

/-- A visitor whose cookie is the name of a user replaces the user's row. -/
theorem not_neverHidden : ¬ NeverHidden := by
  intro h
  let start : ActivityRun := { activity := { windowSecs := 60 } }
  let guest := visit "/".toList "kw_visitor=alice".toList none 6
  let run := (start.after ⟨[]⟩ (.request aliceVisit)).after ⟨[]⟩ (.request guest)
  have hreach : (activitySystem ⟨[]⟩ 60).Reach (fun _ _ => True) run :=
    .step (.step (.start rfl) trivial rfl) trivial rfl
  have hlast : run.last "alice".toList = some (aliceVisit.row ⟨[]⟩) := by decide +kernel
  have hmem := ((h ⟨[]⟩ 60 run hreach).shown "alice".toList _ 6 hlast (by decide) (by decide)).2
  have hactive : (run.activity.active 6).1 = [guest.row ⟨[]⟩] := by decide +kernel
  rw [hactive] at hmem
  have hrow : aliceVisit.row ⟨[]⟩ ≠ guest.row ⟨[]⟩ := by decide +kernel
  exact hrow (List.mem_singleton.mp hmem)

end Kernway
