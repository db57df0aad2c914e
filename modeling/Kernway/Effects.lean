import Kernway.Scripts

namespace Kernway

/-- Why a computation does not return: it panics, or it is still running when the fuel is spent. -/
inductive Stopped
  | panicked
  | unfinished
  deriving DecidableEq

/-- A computation on a state that an error leaves as it was then, and that may not return. -/
def Eff (σ ε α : Type) := σ → Except Stopped (Except ε α × σ)

namespace Eff

variable {σ ε α β : Type}

def bind (m : Eff σ ε α) (f : α → Eff σ ε β) : Eff σ ε β := fun s =>
  match m s with
  | .error stop => .error stop
  | .ok (.error e, s') => .ok (.error e, s')
  | .ok (.ok a, s') => f a s'

instance : Monad (Eff σ ε) where
  pure a := fun s => .ok (.ok a, s)
  bind := bind

instance : LawfulMonad (Eff σ ε) := LawfulMonad.mk' (Eff σ ε)
  (fun m => by
    funext s
    show bind m (fun a => pure a) s = m s
    unfold bind
    cases m s with
    | error why => rfl
    | ok p =>
      obtain ⟨r, s'⟩ := p
      cases r <;> rfl)
  (fun _ _ => rfl)
  (fun m f g => by
    funext s
    show bind (bind m f) g s = bind m (fun a => bind (f a) g) s
    unfold bind
    cases m s with
    | error why => rfl
    | ok p =>
      obtain ⟨r, s'⟩ := p
      cases r <;> rfl)

def ofExcept (r : Except ε α) : Eff σ ε α := fun s => .ok (r, s)

def throw (e : ε) : Eff σ ε α := ofExcept (.error e)

def stop (why : Stopped) : Eff σ ε α := fun _ => .error why

def read : Eff σ ε σ := fun s => .ok (.ok s, s)

/-- A computation that only reads the state. -/
def reads (f : σ → Except Stopped (Except ε α)) : Eff σ ε α := fun s => (f s).map fun r => (r, s)

def modify (f : σ → σ) : Eff σ ε Unit := fun s => .ok (.ok (), f s)

/-- The result of a computation as a value, an error included. -/
def attempt (m : Eff σ ε α) : Eff σ ε (Except ε α) := fun s =>
  match m s with
  | .error stop => .error stop
  | .ok (r, s') => .ok (.ok r, s')

theorem attempt_eq {m : Eff σ ε α} {s s' : σ} {r : Except ε α} (h : m s = .ok (r, s')) :
    m.attempt s = .ok (.ok r, s') := by
  unfold attempt
  rw [h]

theorem bind_ok {m : Eff σ ε α} {f : α → Eff σ ε β} {s s' : σ} {a : α}
    (h : m s = .ok (.ok a, s')) : (m >>= f) s = f a s' := by
  show bind m f s = _
  unfold bind
  rw [h]

theorem bind_error {m : Eff σ ε α} {f : α → Eff σ ε β} {s s' : σ} {e : ε}
    (h : m s = .ok (.error e, s')) : (m >>= f) s = .ok (.error e, s') := by
  show bind m f s = _
  unfold bind
  rw [h]

/-- A computation that does not panic, and ends in the postcondition if it ends. -/
def Ends (m : Eff σ ε α) (post : Except ε α → σ → Prop) (s : σ) : Prop :=
  match m s with
  | .error why => why = .unfinished
  | .ok (r, s') => post r s'

variable {m : Eff σ ε α} {f : α → Eff σ ε β} {s : σ}

theorem Ends.mono {post post' : Except ε α → σ → Prop} (h : m.Ends post s)
    (himp : ∀ r s', post r s' → post' r s') : m.Ends post' s := by
  unfold Ends at h ⊢
  split at h
  next => exact h
  next r s' _ => exact himp r s' h

/-- What the rest of a computation starts from, an error ending it at once. -/
def andThen (f : α → Eff σ ε β) (post : Except ε β → σ → Prop) : Except ε α → σ → Prop
  | .error e, s => post (.error e) s
  | .ok a, s => (f a).Ends post s

theorem ends_bind_iff {post : Except ε β → σ → Prop} :
    (m >>= f).Ends post s ↔ m.Ends (andThen f post) s := by
  show (bind m f).Ends post s ↔ _
  unfold Ends bind
  cases m s with
  | error why => exact Iff.rfl
  | ok p =>
    obtain ⟨r, s'⟩ := p
    cases r with
    | error e => exact Iff.rfl
    | ok a => exact Iff.rfl

theorem Ends.bind {post : Except ε β → σ → Prop} (h : m.Ends (andThen f post) s) :
    (m >>= f).Ends post s :=
  ends_bind_iff.2 h

theorem Ends.attempt {post : Except ε (Except ε α) → σ → Prop}
    (h : m.Ends (fun r s' => post (.ok r) s') s) : m.attempt.Ends post s := by
  unfold Ends Eff.attempt at *
  cases hm : m s with
  | error why => simpa [hm] using h
  | ok p => simpa [hm] using h

@[simp] theorem ends_pure {a : α} {post : Except ε α → σ → Prop} :
    (pure a : Eff σ ε α).Ends post s ↔ post (.ok a) s := Iff.rfl

@[simp] theorem ends_ofExcept {r : Except ε α} {post : Except ε α → σ → Prop} :
    (ofExcept r : Eff σ ε α).Ends post s ↔ post r s := Iff.rfl

@[simp] theorem ends_throw {e : ε} {post : Except ε α → σ → Prop} :
    (throw e : Eff σ ε α).Ends post s ↔ post (.error e) s := Iff.rfl

@[simp] theorem ends_read {post : Except ε σ → σ → Prop} :
    (read : Eff σ ε σ).Ends post s ↔ post (.ok s) s := Iff.rfl

@[simp] theorem ends_modify {g : σ → σ} {post : Except ε Unit → σ → Prop} :
    (modify g : Eff σ ε Unit).Ends post s ↔ post (.ok ()) (g s) := Iff.rfl

@[simp] theorem ends_unfinished {post : Except ε α → σ → Prop} :
    (stop .unfinished : Eff σ ε α).Ends post s ↔ True := by simp [Ends, stop]

/-- A computation that keeps an invariant, whatever its result, and does not panic under it. -/
def Keeps (inv : σ → Prop) (m : Eff σ ε α) : Prop := ∀ s, inv s → m.Ends (fun _ => inv) s

variable {inv : σ → Prop}

theorem Keeps.pure (a : α) : Keeps inv (pure a : Eff σ ε α) := fun _ h => h

theorem Keeps.ofExcept (r : Except ε α) : Keeps inv (ofExcept r : Eff σ ε α) := fun _ h => h

theorem Keeps.throw (e : ε) : Keeps inv (throw e : Eff σ ε α) := fun _ h => h

theorem Keeps.read : Keeps inv (read : Eff σ ε σ) := fun _ h => h

theorem Keeps.modify {g : σ → σ} (hg : ∀ s, inv s → inv (g s)) :
    Keeps inv (modify g : Eff σ ε Unit) := hg

theorem Keeps.reads {g : σ → Except Stopped (Except ε α)} (hg : ∀ s, inv s → ∃ r, g s = .ok r) :
    Keeps inv (reads g) := by
  intro s hs
  obtain ⟨r, hr⟩ := hg s hs
  unfold Ends Eff.reads
  rw [hr]
  exact hs

theorem Keeps.unfinished : Keeps inv (stop .unfinished : Eff σ ε α) := fun _ _ => rfl

theorem Keeps.bind (hm : Keeps inv m) (hf : ∀ a, Keeps inv (f a)) : Keeps inv (m >>= f) := by
  intro s hs
  refine Ends.bind ((hm s hs).mono ?_)
  intro r s' hs'
  cases r with
  | error e => exact hs'
  | ok a => exact hf a s' hs'

theorem Keeps.attempt (hm : Keeps inv m) : Keeps inv m.attempt :=
  fun s hs => (hm s hs).attempt

theorem Keeps.forM {f : α → Eff σ ε PUnit} {as : List α} (hf : ∀ a ∈ as, Keeps inv (f a)) :
    Keeps inv (as.forM f) := by
  induction as with
  | nil => exact Keeps.pure _
  | cons a as ih =>
    have htail : Keeps inv (as.forM f) := ih fun b hb => hf b (List.mem_cons_of_mem a hb)
    exact Keeps.bind (hf a List.mem_cons_self) fun _ => htail

end Eff

/-- A script whose commands are computations, each answered by its result. -/
def Script.exec {C R E σ α : Type} (serve : C → Eff σ E R) :
    Script C (Except E R) E α → Eff σ E α
  | .done result => Eff.ofExcept result
  | .send c next => do
    let reply ← (serve c).attempt
    (next reply).exec serve

theorem Script.exec_keeps {C R E σ α : Type} {serve : C → Eff σ E R} {inv : σ → Prop}
    (h : ∀ c, Eff.Keeps inv (serve c)) (x : Script C (Except E R) E α) :
    Eff.Keeps inv (x.exec serve) := by
  induction x with
  | done result => exact Eff.Keeps.ofExcept result
  | send c next ih => exact Eff.Keeps.bind (h c).attempt ih

end Kernway
