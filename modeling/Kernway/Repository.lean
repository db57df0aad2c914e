import Kernway.Paging
import Kernway.Table

namespace Kernway

/-- The primitives of a repository, over the state that they read and write. -/
structure Repository (S T Id : Type) where
  findById : Id → S → Except OrmError (Option T)
  save : T → S → Except OrmError T × S
  deleteById : Id → S → Except OrmError Unit × S
  fetchCount : S → Except OrmError UInt64

/-- The operations on many rows, and those that have a cheaper path. -/
structure BulkOperations (S T Id : Type) where
  findAllByIds : List Id → S → Except OrmError (List T)
  count : S → Except OrmError UInt64
  existsById : Id → S → Except OrmError Bool
  saveAll : List T → S → Except OrmError (List T) × S
  deleteAllByIds : List Id → S → Except OrmError Unit × S

namespace Repository

variable {S T Id : Type} (repo : Repository S T Id)

def findAllByIds : List Id → S → Except OrmError (List T)
  | [], _ => .ok []
  | id :: ids, s => do
    let row ← repo.findById id s
    let out ← findAllByIds ids s
    return row.toList ++ out

def saveAll : List T → S → Except OrmError (List T) × S
  | [], s => (.ok [], s)
  | entity :: entities, s =>
    match repo.save entity s with
    | (.error e, s) => (.error e, s)
    | (.ok stored, s) =>
      let (out, s) := saveAll entities s
      (out.map (stored :: ·), s)

def deleteAllByIds : List Id → S → Except OrmError Unit × S
  | [], s => (.ok (), s)
  | id :: ids, s =>
    match repo.deleteById id s with
    | (.error e, s) => (.error e, s)
    | (.ok (), s) => deleteAllByIds ids s

/-- The bodies that the trait gives. -/
def defaults : BulkOperations S T Id where
  findAllByIds := repo.findAllByIds
  count := repo.fetchCount
  existsById id s := (repo.findById id s).map Option.isSome
  saveAll := repo.saveAll
  deleteAllByIds := repo.deleteAllByIds

/-- One item of `map(save).collect()`; nothing is saved after the first error. -/
def collectSave : Except OrmError (List T) × S → T → Except OrmError (List T) × S
  | (.error e, s), _ => (.error e, s)
  | (.ok out, s), entity =>
    match repo.save entity s with
    | (.error e, s) => (.error e, s)
    | (.ok stored, s) => (.ok (out ++ [stored]), s)

def collectSaves (entities : List T) (s : S) : Except OrmError (List T) × S :=
  entities.foldl repo.collectSave (.ok [], s)

end Repository

/-- What serde makes of an entity and its key; `J` is a JSON value. -/
structure MemoryEntity (T Id J : Type) where
  id : T → Id
  defaultId : Id
  pkField : Option Text
  idOfNumber : UInt64 → Except Text Id
  toValue : T → Except Text J
  idToValue : Id → Except Text J
  isObject : J → Bool
  insertField : J → Text → J → J
  fromValue : J → Except Text T

/-- The in-memory repository, its lock not poisoned. -/
structure InMemoryRepository (T Id : Type) where
  store : Table Id T
  nextId : UInt64

namespace InMemoryRepository

variable {T Id J : Type} [DecidableEq Id] (entity : MemoryEntity T Id J)

def conversion {α : Type} (message : Text) (result : Except Text α) : Except OrmError α :=
  result.mapError fun e => .typeConversion (message ++ e)

def maybeAssignId (value : T) (repo : InMemoryRepository T Id) :
    Except OrmError T × InMemoryRepository T Id :=
  if entity.id value ≠ entity.defaultId then (.ok value, repo)
  else
    let next := repo.nextId + 1
    (do
      let pkField ← match entity.pkField with
        | some field => .ok field
        | none => .error (.typeConversion "entity is missing primary key metadata".toList)
      let newId ← conversion "cannot assign generated id: ".toList (entity.idOfNumber next)
      let object ← conversion "cannot serialize entity: ".toList (entity.toValue value)
      if entity.isObject object then
        let newValue ← conversion "cannot serialize id: ".toList (entity.idToValue newId)
        conversion "cannot deserialize entity: ".toList
          (entity.fromValue (entity.insertField object pkField newValue))
      else .error (.typeConversion "entity must serialize as an object".toList),
    { repo with nextId := next })

def findByIdSync (id : Id) (repo : InMemoryRepository T Id) : Except OrmError (Option T) :=
  .ok (repo.store.lookup id)

def findAllByIdsSync (ids : List Id) (repo : InMemoryRepository T Id) : Except OrmError (List T) :=
  .ok (ids.filterMap fun id => repo.store.lookup id)

def countSync (repo : InMemoryRepository T Id) : Except OrmError UInt64 :=
  .ok (.ofNat repo.store.entries.length)

def existsByIdSync (id : Id) (repo : InMemoryRepository T Id) : Except OrmError Bool :=
  .ok (decide (id ∈ repo.store))

def saveSync (value : T) (repo : InMemoryRepository T Id) :
    Except OrmError T × InMemoryRepository T Id :=
  match maybeAssignId entity value repo with
  | (.error e, repo) => (.error e, repo)
  | (.ok value, repo) => (.ok value, { repo with store := repo.store.insert (entity.id value) value })

def deleteByIdSync (id : Id) (repo : InMemoryRepository T Id) :
    Except OrmError Unit × InMemoryRepository T Id :=
  (.ok (), { repo with store := repo.store.erase id })

def deleteAllByIdsSync (ids : List Id) (repo : InMemoryRepository T Id) :
    Except OrmError Unit × InMemoryRepository T Id :=
  (.ok (), { repo with store := ids.foldl (fun store id => store.erase id) repo.store })

/-- `query().fetch_count()`. -/
def fetchCountSync (serialize : T → SerialEntity) (repo : InMemoryRepository T Id) :
    Except OrmError UInt64 :=
  let values := repo.store.entries.map Sigma.snd
  .ok (.ofNat (({} : MemoryQueryBuilder).collectItems serialize values).length)

def primitives (serialize : T → SerialEntity) : Repository (InMemoryRepository T Id) T Id where
  findById := findByIdSync
  save := saveSync entity
  deleteById := deleteByIdSync
  fetchCount := fetchCountSync serialize

def overrides (serialize : T → SerialEntity) : BulkOperations (InMemoryRepository T Id) T Id where
  findAllByIds := findAllByIdsSync
  count := countSync
  existsById := existsByIdSync
  saveAll := (primitives entity serialize).collectSaves
  deleteAllByIds := deleteAllByIdsSync

end InMemoryRepository

end Kernway
