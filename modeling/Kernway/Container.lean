import Kernway.DiContext
import Kernway.Effects
import Kernway.Table

namespace Kernway

/-- A type of the program: a named one, a `dyn Trait` included, or `Arc` of a type. -/
inductive RustType
  | named (name : Text)
  | arc (inner : RustType)
  deriving DecidableEq

/-- The ways to read an `&AppContext`. -/
inductive Lookup
  | get (type : RustType)
  | getQualified (type : RustType) (qualifier : Text)
  | getAs (type : RustType)
  | getAll (type : RustType)
  | getAllAs (type : RustType)

/-- The calls that a `&mut AppContext` allows. -/
inductive ContextMethod
  | look (lookup : Lookup)
  | registerInstance (type : RustType) (bean : Bean RustType)
  | registerWithEntry (entry : BeanEntry RustType) (inst : BeanInstance RustType)
  | registerAs (type : RustType) (bean : Bean RustType)
  | registerAsComponent (component type : RustType) (bean : Bean RustType)
  | registerQualified (type : RustType) (qualifier : Text) (bean : Bean RustType)
  | registerComponent (type : RustType)
  | build (type : RustType)
  | refresh

/-- The beans a call answers with: one, or as many as there are, or none. -/
abbrev Reply := Except (DiError RustType) (List (Bean RustType))

/-- Code that is given an `&AppContext`. -/
abbrev Reader (α : Type) := Script Lookup Reply (DiError RustType) α

/-- Code that is given a `&mut AppContext`. -/
abbrev Code (α : Type) := Script ContextMethod Reply (DiError RustType) α

/-- What a type implements of `Buildable` and `RegistersComponent`. -/
structure ComponentImpl where
  beanOrigin : BeanOrigin := .user
  isPrimary : Bool := false
  qualifier : Option Text := none
  dependencies : List RustType := []
  optionalDependencies : List RustType := []
  provides : List RustType
  build : Reader (Bean RustType)
  registerBindings : Bean RustType → Code Unit := fun _ => .done (.ok ())
  postConstruct : Bean RustType → Reader Unit := fun _ => .done (.ok ())

/-- The build closure captures nothing but the type. -/
structure ComponentDef where
  typeName : RustType
  deps : List RustType
  optDeps : List RustType
  provides : List RustType
  deriving DecidableEq

/-- `AppContext`. All components that were registered, and all that were built, are recorded for the
theorems only. -/
structure Container where
  instances : Table RustType (List (BeanEntry RustType × BeanInstance RustType)) := ∅
  pending : List ComponentDef := []
  registered : List ComponentDef := []
  built : List ComponentDef := []

namespace Container

abbrev Call (α : Type) := Eff Container (DiError RustType) α

def downcast (type : RustType) (inst : BeanInstance RustType) : Option (Bean RustType) :=
  if inst.typeId = type then some inst.bean else none

def expectDowncast (type : RustType) (inst : BeanInstance RustType) :
    Except Stopped (Except (DiError RustType) (Bean RustType)) :=
  match downcast type inst with
  | some bean => .ok (.ok bean)
  | none => .error .panicked

def get (ctx : Container) (type : RustType) :
    Except Stopped (Except (DiError RustType) (Bean RustType)) :=
  match ctx.instances.lookup type with
  | none => .ok (.error (.notFound type))
  | some [x] => expectDowncast type x.2
  | some list =>
    match list.filter fun x => x.1.isPrimary with
    | [] => .ok (.error (.ambiguous type))
    | [x] => expectDowncast type x.2
    | _ => .ok (.error (.ambiguous type))

def getQualified (ctx : Container) (type : RustType) (qualifier : Text) :
    Except Stopped (Except (DiError RustType) (Bean RustType)) :=
  match ctx.instances.lookup type with
  | none => .ok (.error (.notFound type))
  | some list =>
    match list.filter fun x => x.1.qualifier = some qualifier with
    | [] => .ok (.error (.notFound type))
    | [x] => expectDowncast type x.2
    | _ => .ok (.error (.ambiguous type))

def getAs (ctx : Container) (type : RustType) :
    Except Stopped (Except (DiError RustType) (Bean RustType)) :=
  ctx.get (.arc type)

def getAll (ctx : Container) (type : RustType) : List (Bean RustType) :=
  match ctx.instances.lookup type with
  | none => []
  | some list => list.filterMap fun x => downcast type x.2

def getAllAs (ctx : Container) (type : RustType) : List (Bean RustType) := ctx.getAll (.arc type)

def answer (ctx : Container) : Lookup → Except Stopped Reply
  | .get type => (ctx.get type).map fun r => r.map fun bean => [bean]
  | .getQualified type qualifier => (ctx.getQualified type qualifier).map fun r =>
    r.map fun bean => [bean]
  | .getAs type => (ctx.getAs type).map fun r => r.map fun bean => [bean]
  | .getAll type => .ok (.ok (ctx.getAll type))
  | .getAllAs type => .ok (.ok (ctx.getAllAs type))

def look (lookup : Lookup) : Call (List (Bean RustType)) := Eff.reads fun ctx => ctx.answer lookup

/-- The override rule on the list of a type. -/
def place (list : List (BeanEntry RustType × BeanInstance RustType)) (entry : BeanEntry RustType)
    (inst : BeanInstance RustType) : List (BeanEntry RustType × BeanInstance RustType) :=
  if entry.isDefault then
    if list.any fun x => !x.1.isDefault then list else list ++ [(entry, inst)]
  else (list.filter fun x => !x.1.isDefault) ++ [(entry, inst)]

/-- The context once a bean has joined the list of its type. -/
def file (entry : BeanEntry RustType) (inst : BeanInstance RustType) (ctx : Container) :
    Container :=
  let list := (ctx.instances.lookup entry.typeId).getD []
  { ctx with instances := ctx.instances.insert entry.typeId (place list entry inst) }

def registerWithEntry (entry : BeanEntry RustType) (inst : BeanInstance RustType) : Call Unit :=
  if inst.typeId ≠ entry.typeId then Eff.throw (.typeMismatch entry.typeId)
  else Eff.modify (file entry inst)

def registerInstance (type : RustType) (bean : Bean RustType) : Call Unit :=
  registerWithEntry ⟨type, .user, false, none⟩ ⟨type, bean⟩

def registerAs (type : RustType) (bean : Bean RustType) : Call Unit :=
  registerWithEntry ⟨.arc type, .user, false, none⟩ ⟨.arc type, bean⟩

def registerQualified (type : RustType) (qualifier : Text) (bean : Bean RustType) : Call Unit :=
  registerWithEntry ⟨type, .user, false, some qualifier⟩ ⟨type, bean⟩

variable (impls : RustType → ComponentImpl)

def componentEntry (component type : RustType) : BeanEntry RustType :=
  ⟨type, (impls component).beanOrigin, (impls component).isPrimary, (impls component).qualifier⟩

def registerAsComponent (component type : RustType) (bean : Bean RustType) : Call Unit :=
  registerWithEntry (componentEntry impls component (.arc type)) ⟨.arc type, bean⟩

def definition (type : RustType) : ComponentDef where
  typeName := type
  deps := (impls type).dependencies
  optDeps := (impls type).optionalDependencies
  provides := (impls type).provides

def registerComponent (type : RustType) : Call Unit := Eff.modify fun ctx =>
  { ctx with
    pending := ctx.pending ++ [definition impls type]
    registered := ctx.registered ++ [definition impls type] }

def build (type : RustType) : Call (Bean RustType) := do
  let inst ← (impls type).build.exec look
  registerInstance type inst
  return inst

/-- A call, for code in which `refresh` is the call given. -/
def serve (refresh : Call Unit) : ContextMethod → Call (List (Bean RustType))
  | .look lookup => look lookup
  | .registerInstance type bean => (fun _ => []) <$> registerInstance type bean
  | .registerWithEntry entry inst => (fun _ => []) <$> registerWithEntry entry inst
  | .registerAs type bean => (fun _ => []) <$> registerAs type bean
  | .registerAsComponent component type bean =>
    (fun _ => []) <$> registerAsComponent impls component type bean
  | .registerQualified type qualifier bean =>
    (fun _ => []) <$> registerQualified type qualifier bean
  | .registerComponent type => (fun _ => []) <$> registerComponent impls type
  | .build type => (fun bean => [bean]) <$> build impls type
  | .refresh => (fun _ => []) <$> refresh

/-- The closure that `register_component` queues. -/
def runBuild (refresh : Call Unit) (d : ComponentDef) : Call Unit := do
  let inst ← (impls d.typeName).build.exec look
  registerWithEntry (componentEntry impls d.typeName d.typeName) ⟨d.typeName, inst⟩
  Eff.modify fun ctx => { ctx with built := ctx.built ++ [d] }
  ((impls d.typeName).registerBindings inst).exec (serve impls refresh)
  ((impls d.typeName).postConstruct inst).exec look

/-- `available` and `pending_providers`. -/
structure Progress where
  available : RustType → Bool
  pendingProviders : RustType → Nat

def Progress.ready (p : Progress) (d : ComponentDef) : Bool :=
  d.deps.all p.available && d.optDeps.all fun t => p.pendingProviders t = 0

def Progress.provide (p : Progress) (d : ComponentDef) : Progress where
  available := fun t => p.available t || t ∈ d.provides
  pendingProviders := fun t => p.pendingProviders t - d.provides.count t

/-- One sweep over the slots; what it does not build stays. -/
def sweep (refresh : Call Unit) (p : Progress) :
    List ComponentDef → Call (Progress × List ComponentDef)
  | [] => pure (p, [])
  | d :: ds =>
    if p.ready d then do
      runBuild impls refresh d
      sweep refresh (p.provide d) ds
    else do
      let (p, rest) ← sweep refresh p ds
      return (p, d :: rest)

@[semireducible] def sweeps (refresh : Call Unit) (p : Progress) (remaining : List ComponentDef) :
    Call (Progress × List ComponentDef) := do
  let (p, rest) ← sweep impls refresh p remaining
  if _h : rest.length < remaining.length then sweeps refresh p rest else return (p, rest)
termination_by remaining.length

/-- The soft-only stall: the rest is built in slot order. -/
def buildRest (refresh : Call Unit) (defs : List ComponentDef) : Call Unit :=
  defs.forM (runBuild impls refresh)

def missing (p : Progress) (providedByBatch : RustType → Bool) (remaining : List ComponentDef) :
    Option ComponentDef :=
  remaining.find? fun d => d.deps.any fun t => !p.available t && !providedByBatch t

def blocked (p : Progress) (remaining : List ComponentDef) : List ComponentDef :=
  remaining.filter fun d => d.deps.any fun t => !p.available t

/-- What follows the sweeps. -/
def finish (refresh : Call Unit) (providedByBatch : RustType → Bool) (p : Progress)
    (remaining : List ComponentDef) : Call Unit :=
  match missing p providedByBatch remaining with
  | some d => Eff.throw (.missingDependency d.typeName)
  | none =>
    if blocked p remaining ≠ [] then
      Eff.throw (.circularDependency ((blocked p remaining).map ComponentDef.typeName))
    else buildRest impls refresh remaining

/-- The number of providers of a type among the definitions. -/
def providers (defs : List ComponentDef) (type : RustType) : Nat :=
  (defs.flatMap ComponentDef.provides).count type

/-- The definitions are taken out of the queue, and built. -/
def pass (refresh : Call Unit) : Call Unit := do
  let ctx ← Eff.read
  let defs := ctx.pending
  Eff.modify fun ctx => { ctx with pending := [] }
  let available := fun t => decide (t ∈ ctx.instances)
  let (p, remaining) ← sweeps impls refresh ⟨available, providers defs⟩ defs
  finish impls refresh (fun t => 0 < providers defs t) p remaining

/-- `refresh`, with fuel for its passes and for the refreshes its components call for. -/
def refresh : Nat → Call Unit
  | 0 => Eff.stop .unfinished
  | fuel + 1 => do
    let ctx ← Eff.read
    if ctx.pending.isEmpty then return ()
    else do
      pass impls (refresh fuel)
      refresh fuel

/-- A call to the container. -/
def request (fuel : Nat) (r : ContextMethod) : Call (List (Bean RustType)) :=
  serve impls (refresh impls fuel) r

end Container

end Kernway
