import Kernway.DiContext

namespace Kernway

inductive InjectKind
  | required
  | optional
  | collection
  deriving DecidableEq

/-- An `#[inject]` field. `type` is the type of the bean, or of `Arc<dyn Trait>`. -/
structure InjectField (Ty : Type) where
  kind : InjectKind
  type : Ty
  qualifier : Option Text := none

/-- What `#[derive(Component)]` generates for a struct. The hook of `#[post_construct]` reads the
beans of the context. -/
structure Component (Ty : Type) where
  type : Ty
  provided : List Ty := []
  fields : List (InjectField Ty) := []
  origin : BeanOrigin := .user
  isPrimary : Bool := false
  qualifier : Option Text := none
  postConstruct : AppContext Ty → Except (DiError Ty) Unit := fun _ => .ok ()

inductive Injected (Ty : Type)
  | required (bean : Bean Ty)
  | optional (bean : Option (Bean Ty))
  | collection (beans : List (Bean Ty))

namespace Component

variable {Ty : Type} (c : Component Ty)

def dependencies : List Ty := (c.fields.filter fun f => f.kind = .required).map InjectField.type

def optionalDependencies : List Ty :=
  (c.fields.filter fun f => f.kind ≠ .required).map InjectField.type

def provides : List Ty := c.type :: c.provided

/-- `component_entry`: the entry that files the component under one of its types. -/
def entry (type : Ty) : BeanEntry Ty := ⟨type, c.origin, c.isPrimary, c.qualifier⟩

def inst (type : Ty) : BeanInstance Ty := ⟨type, .component c.type⟩

end Component

variable {Ty : Type} [DecidableEq Ty]

/-- The bean a required field asks the context for. -/
def AppContext.resolve (ctx : AppContext Ty) (f : InjectField Ty) : Except (DiError Ty) (Bean Ty) :=
  match f.qualifier with
  | none => ctx.get f.type
  | some q => ctx.getQualified f.type q

def AppContext.inject (ctx : AppContext Ty) (f : InjectField Ty) :
    Except (DiError Ty) (Injected Ty) :=
  match f.kind with
  | .required => (ctx.resolve f).map .required
  | .optional => .ok (.optional (ctx.get f.type).toOption)
  | .collection => .ok (.collection (ctx.getAll f.type))

/-- `Buildable::build`: the fields of the new bean. -/
def Component.construct (c : Component Ty) (ctx : AppContext Ty) :
    Except (DiError Ty) (List (Injected Ty)) :=
  c.fields.mapM ctx.inject

/-- The closure that `register_component` queues. -/
def Component.build (c : Component Ty) (ctx : AppContext Ty) :
    Except (DiError Ty) (AppContext Ty) := do
  let _ ← c.construct ctx
  let ctx ← ctx.registerWithEntry (c.entry c.type) (c.inst c.type)
  let ctx ← c.provided.foldlM (fun ctx t => ctx.registerWithEntry (c.entry t) (c.inst t)) ctx
  c.postConstruct ctx
  return ctx

/-- A constructor call, and what the context answers at that time for each required field. It is
recorded for the theorems only. -/
structure Call (Ty : Type) where
  component : Component Ty
  hard : List (Except (DiError Ty) (Bean Ty))

def Component.hardView (c : Component Ty) (ctx : AppContext Ty) :
    List (Except (DiError Ty) (Bean Ty)) :=
  (c.fields.filter fun f => f.kind = .required).map ctx.resolve

/-- The locals of one pass of `refresh`. -/
structure Wiring (Ty : Type) where
  ctx : AppContext Ty
  available : Ty → Bool
  pendingProviders : Ty → Nat
  calls : List (Call Ty) := []

/-- How a refresh fails: a constructor returned the error, or the remaining components stalled. -/
inductive RefreshError (Ty : Type)
  | build (error : DiError Ty)
  | stalled (error : DiError Ty)

def RefreshError.error : RefreshError Ty → DiError Ty
  | .build e => e
  | .stalled e => e

structure Failure (Ty : Type) where
  error : RefreshError Ty
  calls : List (Call Ty)

def Wiring.ready (w : Wiring Ty) (c : Component Ty) : Bool :=
  c.dependencies.all w.available && c.optionalDependencies.all fun d => w.pendingProviders d = 0

def Wiring.call (w : Wiring Ty) (c : Component Ty) : Except (Failure Ty) (Wiring Ty) :=
  let calls := w.calls ++ [⟨c, c.hardView w.ctx⟩]
  match c.build w.ctx with
  | .ok ctx => .ok { w with ctx, calls }
  | .error e => .error ⟨.build e, calls⟩

def Wiring.provide (w : Wiring Ty) (c : Component Ty) : Wiring Ty :=
  { w with
    available := fun t => w.available t || t ∈ c.provides
    pendingProviders := fun t => w.pendingProviders t - c.provides.count t }

/-- One sweep over the slots; what it does not build stays. -/
def sweep (w : Wiring Ty) : List (Component Ty) →
    Except (Failure Ty) (Wiring Ty × List (Component Ty))
  | [] => .ok (w, [])
  | c :: cs =>
    if w.ready c then do
      let w ← w.call c
      sweep (w.provide c) cs
    else do
      let (w, rest) ← sweep w cs
      return (w, c :: rest)

@[semireducible] def sweeps (w : Wiring Ty) (remaining : List (Component Ty)) :
    Except (Failure Ty) (Wiring Ty × List (Component Ty)) :=
  match sweep w remaining with
  | .error e => .error e
  | .ok (w, rest) =>
    if _h : rest.length < remaining.length then sweeps w rest else .ok (w, rest)
termination_by remaining.length

/-- The soft-only stall: the rest is built in slot order. -/
def buildRest (w : Wiring Ty) : List (Component Ty) → Except (Failure Ty) (Wiring Ty)
  | [] => .ok w
  | c :: cs => do
    let w ← w.call c
    buildRest { w with available := fun t => w.available t || t ∈ c.provides } cs

def missing (w : Wiring Ty) (providedByBatch : Ty → Bool) (remaining : List (Component Ty)) :
    Option (Component Ty) :=
  remaining.find? fun c => c.dependencies.any fun d => !w.available d && !providedByBatch d

def blocked (w : Wiring Ty) (remaining : List (Component Ty)) : List (Component Ty) :=
  remaining.filter fun c => c.dependencies.any fun d => !w.available d

/-- What follows the sweeps. -/
def finish (w : Wiring Ty) (providedByBatch : Ty → Bool) (remaining : List (Component Ty)) :
    Except (Failure Ty) (Wiring Ty) :=
  match missing w providedByBatch remaining with
  | some c => .error ⟨.stalled (.missingDependency c.type), w.calls⟩
  | none =>
    if blocked w remaining ≠ [] then
      .error ⟨.stalled (.circularDependency ((blocked w remaining).map Component.type)), w.calls⟩
    else buildRest w remaining

/-- The number of providers of each type among `defs`. -/
def providers (defs : List (Component Ty)) (type : Ty) : Nat :=
  (defs.flatMap Component.provides).count type

def Wiring.start (ctx : AppContext Ty) (defs : List (Component Ty)) : Wiring Ty where
  ctx := ctx
  available := ctx.has
  pendingProviders := providers defs

/-- `refresh` of a context with `pending` queued. A build queues nothing, so the queue is empty
after one pass of the loop. -/
def AppContext.refresh (ctx : AppContext Ty) (pending : List (Component Ty)) :
    Except (Failure Ty) (Wiring Ty) := do
  let (w, remaining) ← sweeps (.start ctx pending) pending
  finish w (fun t => 0 < providers pending t) remaining

end Kernway
