import Kernway.Utf8

namespace Kernway

inductive BeanOrigin
  | frameworkDefault
  | user
  | builder
  deriving DecidableEq

/-- A type name stands for its type. -/
inductive DiError (Ty : Type)
  | notFound (type : Ty)
  | ambiguous (type : Ty)
  | circularDependency (cycle : List Ty)
  | missingDependency (type : Ty)
  | typeMismatch (type : Ty)

inductive DiErrorKind
  | notFound
  | ambiguous
  | circularDependency
  | missingDependency
  | typeMismatch
  deriving DecidableEq

def DiError.kind {Ty : Type} : DiError Ty → DiErrorKind
  | .notFound _ => .notFound
  | .ambiguous _ => .ambiguous
  | .circularDependency _ => .circularDependency
  | .missingDependency _ => .missingDependency
  | .typeMismatch _ => .typeMismatch

structure BeanEntry (Ty : Type) where
  typeId : Ty
  origin : BeanOrigin
  isPrimary : Bool
  qualifier : Option Text

def BeanEntry.isDefault {Ty : Type} (e : BeanEntry Ty) : Bool := e.origin = .frameworkDefault

/-- The object behind an `Arc`: the one a component's constructor made, or one handed in. -/
inductive Bean (Ty : Type)
  | component (type : Ty)
  | given (id : Nat)
  deriving DecidableEq

/-- An `Arc<dyn Any>`: the type it can be downcast to, and the bean it leads to. -/
structure BeanInstance (Ty : Type) where
  typeId : Ty
  bean : Bean Ty

/-- What is registered for one type, either framework defaults or other beans only. -/
structure Beans (Ty : Type) where
  list : List (BeanEntry Ty × BeanInstance Ty) := []
  uniform : (∀ x ∈ list, x.1.isDefault = true) ∨ ∀ x ∈ list, x.1.isDefault = false := by simp

variable {Ty : Type}

theorem Beans.ext' {b b' : Beans Ty} (h : b.list = b'.list) : b = b' := by
  cases b
  cases b'
  simpa using h

/-- The override rule: a default joins defaults only, and any other bean drives the defaults out. -/
def Beans.place (beans : Beans Ty) (entry : BeanEntry Ty) (inst : BeanInstance Ty) : Beans Ty :=
  if hd : entry.isDefault then
    if hu : beans.list.any fun x => !x.1.isDefault then beans
    else ⟨beans.list ++ [(entry, inst)], .inl (by
      intro x hx
      simp only [List.any_eq_true, not_exists, not_and, Bool.not_eq_true, Bool.not_eq_false'] at hu
      rcases List.mem_append.mp hx with h | h
      · exact hu x h
      · rw [List.mem_singleton.mp h]
        exact hd)⟩
  else ⟨beans.list.filter (fun x => !x.1.isDefault) ++ [(entry, inst)], .inr (by
    intro x hx
    rcases List.mem_append.mp hx with h | h
    · simpa using (List.mem_filter.mp h).2
    · rw [List.mem_singleton.mp h]
      simpa using hd)⟩

/-- `instances` of the container. A type without beans is an absent key: no list in the map is
empty. -/
structure AppContext (Ty : Type) where
  instances : Ty → Beans Ty := fun _ => {}

def AppContext.has (ctx : AppContext Ty) (type : Ty) : Bool := !(ctx.instances type).list.isEmpty

variable [DecidableEq Ty]

def AppContext.registerWithEntry (ctx : AppContext Ty) (entry : BeanEntry Ty)
    (inst : BeanInstance Ty) : Except (DiError Ty) (AppContext Ty) :=
  if inst.typeId ≠ entry.typeId then .error (.typeMismatch entry.typeId)
  else .ok ⟨fun t => if t = entry.typeId then (ctx.instances t).place entry inst
    else ctx.instances t⟩

omit [DecidableEq Ty] in
/-- The only element of a list, or an error. -/
def only (xs : List (BeanEntry Ty × BeanInstance Ty)) (none several : DiError Ty) :
    Except (DiError Ty) (Bean Ty) :=
  match xs with
  | [] => .error none
  | [x] => .ok x.2.bean
  | _ => .error several

def AppContext.get (ctx : AppContext Ty) (type : Ty) : Except (DiError Ty) (Bean Ty) :=
  match (ctx.instances type).list with
  | [] => .error (.notFound type)
  | [x] => .ok x.2.bean
  | list => only (list.filter fun x => x.1.isPrimary) (.ambiguous type) (.ambiguous type)

def AppContext.getQualified (ctx : AppContext Ty) (type : Ty) (qualifier : Text) :
    Except (DiError Ty) (Bean Ty) :=
  only ((ctx.instances type).list.filter fun x => x.1.qualifier = some qualifier)
    (.notFound type) (.ambiguous type)

def AppContext.getAll (ctx : AppContext Ty) (type : Ty) : List (Bean Ty) :=
  (ctx.instances type).list.map fun x => x.2.bean

end Kernway
