import Mathlib.Data.List.Basic

namespace Kernway

/-- A program that sends commands, each reply deciding how it goes on. -/
inductive Script (C R E α : Type)
  | done (result : Except E α)
  | send (c : C) (next : R → Script C R E α)

namespace Script

variable {C R E σ α β : Type}

def bind : Script C R E α → (α → Script C R E β) → Script C R E β
  | done (.ok a), f => f a
  | done (.error e), _ => done (.error e)
  | send c next, f => send c fun reply => (next reply).bind f

instance : Monad (Script C R E) where
  pure a := done (.ok a)
  bind := bind

@[simp] theorem pure_eq (a : α) : (pure a : Script C R E α) = done (.ok a) := rfl

@[simp] theorem done_ok_bind (a : α) (f : α → Script C R E β) :
    (done (.ok a) : Script C R E α) >>= f = f a := rfl

@[simp] theorem done_error_bind (e : E) (f : α → Script C R E β) :
    (done (.error e) : Script C R E α) >>= f = done (.error e) := rfl

@[simp] theorem send_bind (c : C) (next : R → Script C R E α) (f : α → Script C R E β) :
    send c next >>= f = send c fun reply => next reply >>= f := rfl

variable (answers : σ → C → R → σ → Prop)

/-- The script run from a state on its own, its result and the state it leaves. -/
inductive Runs : Script C R E α → σ → Except E α → σ → Prop
  | done {result : Except E α} {s : σ} : Runs (.done result) s result s
  | send {c : C} {next : R → Script C R E α} {s s' s'' : σ} {reply : R} {result : Except E α} :
      answers s c reply s' → Runs (next reply) s' result s'' → Runs (.send c next) s result s''

/-- The states every run of the script from which ends in the postcondition. -/
def wp : Script C R E α → (Except E α → σ → Prop) → σ → Prop
  | done result, post => post result
  | send c next, post => fun s => ∀ reply s', answers s c reply s' → (next reply).wp post s'

variable {answers}

@[simp] theorem wp_done (result : Except E α) (post : Except E α → σ → Prop) (s : σ) :
    (done result : Script C R E α).wp answers post s ↔ post result s := Iff.rfl

theorem wp_send (c : C) (next : R → Script C R E α) (post : Except E α → σ → Prop) (s : σ) :
    (send c next).wp answers post s ↔
      ∀ reply s', answers s c reply s' → (next reply).wp answers post s' := Iff.rfl

theorem wp_mono {x : Script C R E α} {post post' : Except E α → σ → Prop} {s : σ}
    (h : x.wp answers post s) (himp : ∀ r s, post r s → post' r s) : x.wp answers post' s := by
  induction x generalizing s with
  | done result => exact himp result s h
  | send c next ih =>
    intro reply s' ha
    exact ih reply (h reply s' ha)

/-- What the next part of a script has to start from, an error ending it at once. -/
def andThen (answers : σ → C → R → σ → Prop) (f : α → Script C R E β)
    (post : Except E β → σ → Prop) : Except E α → σ → Prop
  | .ok a, s => (f a).wp answers post s
  | .error e, s => post (.error e) s

theorem wp_bind {x : Script C R E α} {f : α → Script C R E β} {post : Except E β → σ → Prop}
    {s : σ} (h : x.wp answers (andThen answers f post) s) : (x >>= f).wp answers post s := by
  induction x generalizing s with
  | done result =>
    cases result with
    | ok a => exact h
    | error e => exact h
  | send c next ih =>
    intro reply s' ha
    exact ih reply (h reply s' ha)

/-- A loop over a list, by what holds before the rest of it. -/
theorem wp_forM {f : α → Script C R E PUnit} (inv : List α → σ → Prop)
    {post : Except E PUnit → σ → Prop} (hnil : ∀ s, inv [] s → post (.ok ⟨⟩) s)
    (hcons : ∀ a as s, inv (a :: as) s → (f a).wp answers (fun r s =>
      match r with
      | .ok _ => inv as s
      | .error e => post (.error e) s) s) {as : List α} {s : σ} (h : inv as s) :
    (as.forM f).wp answers post s := by
  induction as generalizing s with
  | nil => exact hnil s h
  | cons a as ih =>
    refine wp_bind (wp_mono (hcons a as s h) ?_)
    intro r s hr
    cases r with
    | ok _ => exact ih hr
    | error e => exact hr

theorem wp_iff {x : Script C R E α} {post : Except E α → σ → Prop} {s : σ} :
    x.wp answers post s ↔ ∀ result s', x.Runs answers s result s' → post result s' := by
  constructor
  · intro h result s' hr
    induction hr with
    | done => exact h
    | send ha _ ih => exact ih (h _ _ ha)
  · intro h
    induction x generalizing s with
    | done result => exact h result s .done
    | send c next ih =>
      intro reply s' ha
      exact ih reply fun result s'' hr => h result s'' (.send ha hr)

/-- The run against answers that a function gives. -/
def run (exec : σ → C → R × σ) : Script C R E α → σ → Except E α × σ
  | done result, s => (result, s)
  | send c next, s => (next (exec s c).1).run exec (exec s c).2

theorem runs_run {exec : σ → C → R × σ} (hexec : ∀ s c, answers s c (exec s c).1 (exec s c).2)
    (x : Script C R E α) (s : σ) : x.Runs answers s (x.run exec s).1 (x.run exec s).2 := by
  induction x generalizing s with
  | done result => exact .done
  | send c next ih => exact .send (hexec s c) (ih _ _)

/-- Every command the script may send meets a condition. -/
def Sends (p : C → Prop) : Script C R E α → Prop
  | done _ => True
  | send c next => p c ∧ ∀ reply, (next reply).Sends p

theorem sends_bind {p : C → Prop} {x : Script C R E α} {f : α → Script C R E β} (hx : x.Sends p)
    (hf : ∀ a, (f a).Sends p) : (x >>= f).Sends p := by
  induction x with
  | done result =>
    cases result with
    | ok a => exact hf a
    | error e => trivial
  | send c next ih => exact ⟨hx.1, fun reply => ih reply (hx.2 reply)⟩

theorem sends_forM {p : C → Prop} {f : α → Script C R E PUnit} (hf : ∀ a, (f a).Sends p)
    (as : List α) : (as.forM f).Sends p := by
  induction as with
  | nil => trivial
  | cons a as ih => exact sends_bind (hf a) fun _ => ih

/-- What holds of a script and of whatever is left of it after any replies. -/
def Throughout (p : Script C R E α → Prop) : Script C R E α → Prop
  | done result => p (done result)
  | send c next => p (send c next) ∧ ∀ reply, (next reply).Throughout p

theorem Throughout.mono {p q : Script C R E α → Prop} {x : Script C R E α} (h : x.Throughout p)
    (himp : ∀ y, p y → q y) : x.Throughout q := by
  induction x with
  | done result => exact himp _ h
  | send c next ih => exact ⟨himp _ h.1, fun reply => ih reply (h.2 reply)⟩

theorem Sends.throughout {p : C → Prop} {x : Script C R E α} (h : x.Sends p) :
    x.Throughout fun y => y.Sends p := by
  induction x with
  | done result => exact h
  | send c next ih => exact ⟨h, fun reply => ih reply (h.2 reply)⟩

theorem Throughout.now {p : Script C R E α → Prop} {x : Script C R E α} (h : x.Throughout p) :
    p x := by
  cases x with
  | done result => exact h
  | send c next => exact h.1

end Script

end Kernway
