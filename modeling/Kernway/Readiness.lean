import Mathlib.Data.List.Induction

namespace Kernway.Readiness

/-- What happens at sources that are waited on in several directions. -/
inductive Entry (σ δ ω : Type)
  | opened (x : σ)
  | closed (x : σ)
  | parked (x : σ) (d : δ) (w : ω)
  | edge (x : σ) (d : δ)
  | woken (x : σ) (d : δ) (w : ω)

/-- What an entry is for one direction of one source; `touch` parks in another direction of it. -/
inductive Act (ω : Type)
  | «open»
  | close
  | park (w : ω)
  | touch
  | edge
  | wake (w : ω)

variable {σ δ ω : Type} [DecidableEq σ] [DecidableEq δ] [DecidableEq ω]

def Entry.seen (x : σ) (d : δ) : Entry σ δ ω → Option (Act ω)
  | .opened x' => if x' = x then some .open else none
  | .closed x' => if x' = x then some .close else none
  | .parked x' d' w => if x' = x then if d' = d then some (.park w) else some .touch else none
  | .edge x' d' => if x' = x ∧ d' = d then some .edge else none
  | .woken x' d' w => if x' = x ∧ d' = d then some (.wake w) else none

/-- One direction of one source: not there; with no waker; with a waker; with an edge and no waker;
or with a waker that is to be woken next. -/
inductive Wait (ω : Type)
  | absent
  | idle
  | parked (w : ω)
  | ready
  | due (w : ω)

/-- The acts that a direction takes part in, and how it goes on. -/
def move : Wait ω → Act ω → Option (Wait ω)
  | .due w, .wake w' => if w' = w then some .idle else none
  | .due _, _ => none
  | _, .open => some .idle
  | _, .close => some .absent
  | .ready, .park w => some (.due w)
  | _, .park w => some (.parked w)
  | .absent, .touch => some .idle
  | q, .touch => some q
  | .parked w, .edge => some (.due w)
  | .idle, .edge => some .ready
  | q, .edge => some q
  | _, .wake _ => none

/-- The entries that may follow; a waker that is due is woken before anything else happens. -/
def next (x : σ) (d : δ) (q : Wait ω) (e : Entry σ δ ω) : Option (Wait ω) :=
  match e.seen x d, q with
  | some act, q => move q act
  | none, .due _ => none
  | none, q => some q

/-- A log that a direction goes through, to end in a state. -/
def Follows (x : σ) (d : δ) (log : List (Entry σ δ ω)) (q : Wait ω) : Prop :=
  log.foldlM (next x d) .absent = some q

def settle (held : Option ω) : Option (Act ω) → Option ω
  | some .open | some .close | some (.wake _) => none
  | some (.park w) => some w
  | _ => held

/-- The waker that was parked last, unless it has been woken or its source opened or closed. -/
def waiting (x : σ) (d : δ) (log : List (Entry σ δ ω)) : Option ω :=
  log.foldl (fun held e => settle held (e.seen x d)) none

def turn (x : σ) (there : Bool) : Entry σ δ ω → Bool
  | .opened x' => x' = x || there
  | .closed x' => x' ≠ x && there
  | _ => there

def isOpen (x : σ) (log : List (Entry σ δ ω)) : Bool := log.foldl (turn x) false

/-- Whether an entry parks a waker for a direction of a source, or opens or closes the source. -/
def Entry.Turns (x : σ) (d : δ) (e : Entry σ δ ω) : Prop :=
  match e.seen x d with
  | some .open | some .close | some (.park _) => True
  | _ => False

/-- No edge is lost. An edge at once wakes the waker that is waiting; where none is, the next one
that is parked is woken at once; and a waker is woken only so. -/
structure Honoured (log : List (Entry σ δ ω)) : Prop where
  waiter : ∀ before after x d w, log = before ++ .edge x d :: after →
    waiting x d before = some w → ∃ rest, after = .woken x d w :: rest
  remembered : ∀ before since after x d w,
    log = (before ++ .edge x d :: since) ++ .parked x d w :: after →
    isOpen x before = true → waiting x d before = none → (∀ e ∈ since, ¬ e.Turns x d) →
    ∃ rest, after = .woken x d w :: rest
  only : ∀ before after x d w, log = before ++ .woken x d w :: after →
    ∃ earlier, before = earlier ++ [.edge x d] ∧ waiting x d earlier = some w ∨
      before = earlier ++ [.parked x d w]

/-- The waker that a state has. -/
def Wait.waker : Wait ω → Option ω
  | .parked w | .due w => some w
  | _ => none

variable {x : σ} {d : δ} {log before after : List (Entry σ δ ω)} {e : Entry σ δ ω} {q q' : Wait ω}

omit [DecidableEq ω] in
theorem seen_eq_close : e.seen x d = some .close ↔ e = .closed x := by
  cases e with
  | _ => grind [Entry.seen]

omit [DecidableEq ω] in
theorem seen_eq_edge : e.seen x d = some .edge ↔ e = .edge x d := by
  cases e with
  | _ => grind [Entry.seen]

omit [DecidableEq ω] in
theorem seen_eq_park {w : ω} : e.seen x d = some (.park w) ↔ e = .parked x d w := by
  cases e with
  | _ => grind [Entry.seen]

omit [DecidableEq ω] in
theorem seen_eq_wake {w : ω} : e.seen x d = some (.wake w) ↔ e = .woken x d w := by
  cases e with
  | _ => grind [Entry.seen]

theorem move_wake {w : ω} (h : move q (.wake w) = some q') : q = .due w ∧ q' = .idle := by
  cases q with
  | due w' =>
    have hif : (if w = w' then some .idle else none) = some q' := h
    split at hif
    next hw => exact ⟨by rw [hw], (Option.some.inj hif).symm⟩
    next => cases hif
  | _ => cases h

theorem next_of_seen {act : Act ω} (h : e.seen x d = some act) : next x d q e = move q act := by
  unfold next
  rw [h]

theorem next_of_unseen (h : e.seen x d = none) (hnext : next x d q e = some q') :
    q' = q ∧ ∀ w, q ≠ .due w := by
  unfold next at hnext
  rw [h] at hnext
  cases q with
  | due w => cases hnext
  | _ =>
    cases hnext
    exact ⟨rfl, fun w => nofun⟩

theorem follows_append (h : Follows x d (before ++ after) q) :
    ∃ q', Follows x d before q' ∧ after.foldlM (next x d) q' = some q := by
  unfold Follows at h ⊢
  rw [List.foldlM_append] at h
  exact Option.bind_eq_some_iff.mp h

theorem follows_cons (h : Follows x d (before ++ e :: after) q) :
    ∃ q₀ q₁, Follows x d before q₀ ∧ next x d q₀ e = some q₁ ∧
      after.foldlM (next x d) q₁ = some q := by
  obtain ⟨q₀, hbefore, hafter⟩ := follows_append h
  rw [List.foldlM_cons] at hafter
  obtain ⟨q₁, hnext, hafter⟩ := Option.bind_eq_some_iff.mp hafter
  exact ⟨q₀, q₁, hbefore, hnext, hafter⟩

theorem follows_concat (h : Follows x d log q) (hnext : next x d q e = some q') :
    Follows x d (log ++ [e]) q' := by
  unfold Follows at h ⊢
  rw [List.foldlM_append, h]
  show (next x d q e).bind _ = _
  rw [hnext]
  rfl

/-- A waker that is due is woken next. -/
theorem woken_of_due {w : ω} (h : after.foldlM (next x d) (.due w) = some q)
    (hq : ∀ w, q ≠ .due w) : ∃ rest, after = .woken x d w :: rest := by
  cases after with
  | nil => exact absurd (Option.some.inj h).symm (hq w)
  | cons e rest =>
    rw [List.foldlM_cons] at h
    obtain ⟨q₁, hnext, _⟩ := Option.bind_eq_some_iff.mp h
    refine ⟨rest, ?_⟩
    cases hseen : e.seen x d with
    | none => exact absurd rfl ((next_of_unseen hseen hnext).2 w)
    | some act =>
      rw [next_of_seen hseen] at hnext
      cases act with
      | wake w' =>
        obtain ⟨hdue, _⟩ := move_wake hnext
        cases hdue
        rw [seen_eq_wake.1 hseen]
      | _ => cases hnext

theorem settle_next (h : next x d q e = some q') : settle q.waker (e.seen x d) = q'.waker := by
  cases hseen : e.seen x d with
  | none =>
    rw [(next_of_unseen hseen h).1]
    rfl
  | some act =>
    rw [next_of_seen hseen] at h
    cases act with
    | wake w' =>
      rw [(move_wake h).2]
      rfl
    | _ =>
      cases q with
      | due w => cases h
      | _ =>
        cases h
        rfl

theorem waiting_eq (h : Follows x d log q) : waiting x d log = q.waker := by
  induction log using List.reverseRecOn generalizing q with
  | nil =>
    cases h
    rfl
  | append_singleton log e ih =>
    obtain ⟨q₀, q₁, hlog, hnext, hend⟩ := follows_cons h
    cases hend
    unfold waiting
    rw [List.foldl_append]
    show settle (waiting x d log) (e.seen x d) = _
    rw [ih hlog, settle_next hnext]

/-- Only a close takes a direction away. -/
theorem ne_absent_of_next (h : next x d q e = some q') (hclose : e.seen x d ≠ some .close)
    (hq : q ≠ .absent ∨ e.seen x d = some .open) : q' ≠ .absent := by
  cases hseen : e.seen x d with
  | none =>
    rw [(next_of_unseen hseen h).1]
    exact hq.resolve_right fun hopen => by rw [hseen] at hopen; cases hopen
  | some act =>
    rw [next_of_seen hseen] at h
    cases act with
    | close => exact absurd hseen hclose
    | wake w' =>
      rw [(move_wake h).2]
      exact nofun
    | edge =>
      have hthere := hq.resolve_right fun hopen => by rw [hseen] at hopen; cases hopen
      cases q with
      | absent => exact absurd rfl hthere
      | due w => cases h
      | _ =>
        cases h
        exact nofun
    | _ =>
      cases q with
      | due w => cases h
      | _ =>
        cases h
        exact nofun

/-- A source that is open is there. -/
theorem ne_absent (h : Follows x d log q) (hopen : isOpen x log = true) : q ≠ .absent := by
  induction log using List.reverseRecOn generalizing q with
  | nil => cases hopen
  | append_singleton log e ih =>
    obtain ⟨q₀, q₁, hlog, hnext, hend⟩ := follows_cons h
    cases hend
    unfold isOpen at hopen
    rw [List.foldl_append] at hopen
    have hturn : turn x (isOpen x log) e = true := hopen
    have hstay : isOpen x log = true → q₀ ≠ .absent := ih hlog
    refine ne_absent_of_next hnext ?_ ?_
    · intro hclose
      rw [seen_eq_close.1 hclose] at hturn
      simp [turn] at hturn
    · cases e with
      | opened x' =>
        by_cases hx : x' = x
        · exact .inr (if_pos hx)
        · refine .inl (hstay ?_)
          unfold turn at hturn
          simpa [hx] using hturn
      | closed x' =>
        refine .inl (hstay ?_)
        unfold turn at hturn
        exact (Bool.and_eq_true_iff.mp hturn).2
      | _ => exact .inl (hstay hturn)

/-- An edge is remembered until a waker is parked or the source is opened or closed. -/
theorem ready_stays (h : after.foldlM (next x d) .ready = some q)
    (hstay : ∀ e ∈ after, ¬ e.Turns x d) : q = .ready := by
  induction after with
  | nil => exact (Option.some.inj h).symm
  | cons e after ih =>
    obtain ⟨hturn, hstay⟩ := List.forall_mem_cons.mp hstay
    rw [List.foldlM_cons] at h
    obtain ⟨q₁, hnext, h⟩ := Option.bind_eq_some_iff.mp h
    have hq : q₁ = .ready := by
      unfold Entry.Turns at hturn
      cases hseen : e.seen x d with
      | none => exact (next_of_unseen hseen hnext).1
      | some act =>
        rw [hseen] at hturn
        rw [next_of_seen hseen] at hnext
        cases act with
        | «open» => exact absurd trivial hturn
        | close => exact absurd trivial hturn
        | park w => exact absurd trivial hturn
        | wake w => cases hnext
        | touch => exact (Option.some.inj hnext).symm
        | edge => exact (Option.some.inj hnext).symm
    rw [hq] at h
    exact ih h hstay

/-- A waker becomes due by an edge where it waits, or as it is parked where an edge was. -/
theorem due_of_next {w : ω} (h : next x d q e = some (.due w)) :
    e = .edge x d ∧ q = .parked w ∨ e = .parked x d w := by
  have hact : ∃ act, e.seen x d = some act ∧ (act = .edge ∧ q = .parked w ∨ act = .park w) := by
    cases hseen : e.seen x d with
    | none =>
      obtain ⟨hq, hdue⟩ := next_of_unseen hseen h
      exact absurd hq.symm (hdue w)
    | some act =>
      rw [next_of_seen hseen] at h
      refine ⟨act, rfl, ?_⟩
      cases act with
      | wake w' => cases (move_wake h).2
      | edge =>
        cases q with
        | parked w' =>
          cases h
          exact .inl ⟨rfl, rfl⟩
        | _ => cases h
      | park w' =>
        cases q with
        | ready =>
          cases h
          exact .inr rfl
        | _ => cases h
      | _ =>
        cases q with
        | _ => cases h
  obtain ⟨act, hseen, ⟨rfl, hq⟩ | rfl⟩ := hact
  · exact .inl ⟨seen_eq_edge.1 hseen, hq⟩
  · exact .inr (seen_eq_park.1 hseen)

/-- A log that every direction of every source can follow loses no edge. -/
theorem honoured_of_follows (h : ∀ x d, ∃ q, Follows x d log q ∧ ∀ w, q ≠ .due w) :
    Honoured log where
  waiter := by
    rintro before after x d w rfl hwaiting
    obtain ⟨q, hq, hnotDue⟩ := h x d
    obtain ⟨q₀, q₁, hbefore, hnext, hafter⟩ := follows_cons hq
    rw [waiting_eq hbefore] at hwaiting
    rw [next_of_seen (seen_eq_edge.2 rfl)] at hnext
    cases q₀ with
    | parked w' =>
      cases hwaiting
      cases hnext
      exact woken_of_due hafter hnotDue
    | due w' => cases hnext
    | _ => cases hwaiting
  remembered := by
    rintro before since after x d w rfl hopen hwaiting hstay
    obtain ⟨q, hq, hnotDue⟩ := h x d
    obtain ⟨q₂, q₃, hsince, hpark, hafter⟩ := follows_cons hq
    obtain ⟨q₀, q₁, hbefore, hnext, hsince⟩ := follows_cons hsince
    have hthere := ne_absent hbefore hopen
    rw [waiting_eq hbefore] at hwaiting
    rw [next_of_seen (seen_eq_edge.2 rfl)] at hnext
    have hready : q₁ = .ready := by
      cases q₀ with
      | absent => exact absurd rfl hthere
      | parked w' => cases hwaiting
      | due w' => cases hwaiting
      | _ => exact (Option.some.inj hnext).symm
    rw [hready] at hsince
    rw [ready_stays hsince hstay, next_of_seen (seen_eq_park.2 rfl)] at hpark
    cases hpark
    exact woken_of_due hafter hnotDue
  only := by
    rintro before after x d w rfl
    obtain ⟨q, hq, _⟩ := h x d
    obtain ⟨q₀, q₁, hbefore, hnext, _⟩ := follows_cons hq
    rw [next_of_seen (seen_eq_wake.2 rfl)] at hnext
    rw [(move_wake hnext).1] at hbefore
    cases hlast : before using List.reverseRecOn with
    | nil =>
      rw [hlast] at hbefore
      cases hbefore
    | append_singleton earlier e =>
      rw [hlast] at hbefore
      obtain ⟨q₂, q₃, hearlier, hstep, hend⟩ := follows_cons hbefore
      cases hend
      refine ⟨earlier, ?_⟩
      rcases due_of_next hstep with ⟨rfl, rfl⟩ | rfl
      · exact .inl ⟨rfl, waiting_eq hearlier⟩
      · exact .inr rfl

end Kernway.Readiness
