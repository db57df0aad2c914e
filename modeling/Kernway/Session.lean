import Mathlib.Data.List.Induction
import Kernway.Table
import Kernway.Utf8

namespace Kernway

structure SessionRecord where
  user : Text
  created : UInt64
  lastSeen : UInt64
  «meta» : Text
  deriving DecidableEq

/-- The in-memory registry, by session id. -/
abbrev MemorySessionStore := Table Text SessionRecord

namespace MemorySessionStore

def touch (inner : MemorySessionStore) (sid : Text) (time : UInt64) : MemorySessionStore :=
  Table.modify inner sid fun r => { r with lastSeen := time }

def removeUser (inner : MemorySessionStore) (user : Text) : MemorySessionStore :=
  Table.retain (fun _ r => decide (r.user ≠ user)) inner

end MemorySessionStore

/-- The writes of a `SessionStore`. -/
inductive SessionOp
  | insert (sid : Text) (record : SessionRecord)
  | touch (sid : Text) (time : UInt64)
  | remove (sid : Text)
  | removeUser (user : Text)
  deriving DecidableEq

def SessionOp.apply : SessionOp → MemorySessionStore → MemorySessionStore
  | insert sid record, inner => AList.insert sid record inner
  | touch sid time, inner => inner.touch sid time
  | remove sid, inner => AList.erase sid inner
  | removeUser user, inner => inner.removeUser user

/-- What a write does to the record under one session id. -/
def SessionOp.on : SessionOp → Text → Option SessionRecord → Option SessionRecord
  | insert sid record, k, v => if k = sid then some record else v
  | touch sid time, k, v => if k = sid then v.map fun r => { r with lastSeen := time } else v
  | remove sid, k, v => if k = sid then none else v
  | removeUser user, _, v => v.filter fun r => decide (r.user ≠ user)

theorem SessionOp.lookup_apply (op : SessionOp) (inner : MemorySessionStore) (k : Text) :
    (op.apply inner).lookup k = op.on k (inner.lookup k) := by
  cases op with
  | insert sid record => exact Table.lookup_insert_eq inner sid k record
  | touch sid time => exact Table.lookup_modify inner sid k _
  | remove sid => exact Table.lookup_erase_eq inner sid k
  | removeUser user => exact Table.lookup_retain inner _ k

def runOn (ops : List SessionOp) (k : Text) (v : Option SessionRecord) : Option SessionRecord :=
  ops.foldl (fun v op => op.on k v) v

@[simp] theorem runOn_nil (k : Text) (v : Option SessionRecord) : runOn [] k v = v := rfl

@[simp] theorem runOn_cons (op : SessionOp) (ops : List SessionOp) (k : Text)
    (v : Option SessionRecord) : runOn (op :: ops) k v = runOn ops k (op.on k v) := rfl

@[simp] theorem runOn_append (ops ops' : List SessionOp) (k : Text) (v : Option SessionRecord) :
    runOn (ops ++ ops') k v = runOn ops' k (runOn ops k v) := List.foldl_append

theorem lookup_foldl_apply (ops : List SessionOp) (inner : MemorySessionStore) (k : Text) :
    (ops.foldl (fun s op => op.apply s) inner).lookup k = runOn ops k (inner.lookup k) := by
  induction ops generalizing inner with
  | nil => rfl
  | cons op ops ih => rw [List.foldl_cons, ih, SessionOp.lookup_apply, runOn_cons]

def SessionOp.Commutes (a b : SessionOp) : Prop :=
  ∀ k v, b.on k (a.on k v) = a.on k (b.on k v)

theorem runOn_move {ops rest : List SessionOp} {op : SessionOp} (h : ∀ a ∈ ops, a.Commutes op)
    (k : Text) (v : Option SessionRecord) :
    runOn (ops ++ op :: rest) k v = runOn (ops ++ rest) k (op.on k v) := by
  induction ops generalizing v with
  | nil => rfl
  | cons a ops ih =>
    have ha : a.Commutes op := h a (List.mem_cons_self ..)
    simp only [List.cons_append, runOn_cons]
    rw [ih (fun x hx => h x (List.mem_cons_of_mem a hx)), ha k v]

/-- What a run of writes does to one record: put there what the writes alone decide, or keep
what is there, its user allowed and its time renewed. -/
inductive Effect : (Option SessionRecord → Option SessionRecord) → Prop
  | settled (v : Option SessionRecord) : Effect fun _ => v
  | kept (allowed : Text → Bool) (time : Option UInt64) : Effect fun v =>
    (v.filter fun r => allowed r.user).map fun r => { r with lastSeen := time.getD r.lastSeen }

theorem Effect.twice {f : Option SessionRecord → Option SessionRecord} (h : Effect f)
    (v : Option SessionRecord) : f (f v) = f v := by
  cases h with
  | settled w => rfl
  | kept allowed time =>
    cases v with
    | none => rfl
    | some r => cases hr : allowed r.user <;> cases time <;> simp [Option.filter, hr]

theorem Effect.on {f : Option SessionRecord → Option SessionRecord} (h : Effect f)
    (op : SessionOp) (k : Text) : Effect fun v => op.on k (f v) := by
  cases h with
  | settled w => exact .settled (op.on k w)
  | kept allowed time =>
    cases op with
    | insert sid record =>
      by_cases hk : k = sid
      · simpa [SessionOp.on, hk] using Effect.settled (some record)
      · simpa [SessionOp.on, hk] using Effect.kept allowed time
    | touch sid t =>
      by_cases hk : k = sid
      · simpa [SessionOp.on, hk, Function.comp_def] using Effect.kept allowed (some t)
      · simpa [SessionOp.on, hk] using Effect.kept allowed time
    | remove sid =>
      by_cases hk : k = sid
      · simpa [SessionOp.on, hk] using Effect.settled none
      · simpa [SessionOp.on, hk] using Effect.kept allowed time
    | removeUser user =>
      convert Effect.kept (fun u => allowed u && decide (u ≠ user)) time using 2 with v
      cases v with
      | none => rfl
      | some r =>
        by_cases hu : r.user = user
        · subst hu
          cases hr : allowed r.user <;> simp [SessionOp.on, Option.filter, hr]
        · cases hr : allowed r.user <;> simp [SessionOp.on, Option.filter, hr, hu]

theorem effect_runOn (ops : List SessionOp) (k : Text) : Effect (runOn ops k) := by
  induction ops using List.reverseRecOn with
  | nil =>
    convert Effect.kept (fun _ => true) none using 2 with v
    cases v <;> rfl
  | append_singleton ops op ih =>
    convert ih.on op k using 2 with v
    exact runOn_append ops [op] k v

/-- Writes replayed over their own result change nothing. -/
theorem runOn_twice (ops : List SessionOp) (k : Text) (v : Option SessionRecord) :
    runOn ops k (runOn ops k v) = runOn ops k v :=
  (effect_runOn ops k).twice v

end Kernway
