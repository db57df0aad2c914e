import Kernway.UnicodeCase
import Mathlib.Logic.Function.Basic

namespace Kernway

/-- The name inside a pattern segment that is a placeholder, `{id}`. -/
def placeholder (segment : Text) : Option Text :=
  match segment with
  | '{' :: rest => if rest.getLast? = some '}' then some rest.dropLast else none
  | _ => none

def segments (path : Text) : List Text := (path.splitOn '/').filter (· ≠ [])

/-- A node of the trie. The hash map of static children is a partial function, and the parameter
child comes with its name. -/
structure Node (H : Type) where
  statics : Text → Option (Node H) := fun _ => none
  param : Option (Text × Node H) := none
  handlers : List (Text × H) := []

/-- `params`, a hash map. -/
abbrev Params := Text → Option Text

namespace Params

def empty : Params := fun _ => none

def insert (ps : Params) (name value : Text) : Params := Function.update ps name (some value)

def remove (ps : Params) (name : Text) : Params := Function.update ps name none

end Params

variable {H : Type}

def Node.handlerFor (node : Node H) (method : Text) : Option H :=
  (node.handlers.find? fun p => eqIgnoreAsciiCase p.1 method).map Prod.snd

/-- The descent of `Router::add` along the pattern's segments, which makes the missing nodes. -/
def Node.add (method : Text) (handler : H) : List Text → Node H → Node H
  | [], node => { node with handlers := node.handlers ++ [(method, handler)] }
  | segment :: rest, node =>
    match placeholder segment with
    | some name =>
      let (name, child) := node.param.getD (name, {})
      { node with param := some (name, Node.add method handler rest child) }
    | none =>
      let child := (node.statics segment).getD {}
      { node with
        statics := Function.update node.statics segment
          (some (Node.add method handler rest child)) }

structure Router (H : Type) where
  root : Node H := {}

def Router.add (u : UnicodeCase) (router : Router H) (method pattern : Text) (handler : H) :
    Router H :=
  ⟨router.root.add (toUppercase u method) handler (segments pattern)⟩

/-- The next segment of a path, and the path after it. -/
def peel (path : Text) : Option (Text × Text) :=
  let path := path.dropWhile (· == '/')
  if path = [] then none else some ((cutAt '/' path).getD (path, []))

theorem peel_decreases {path seg rest : Text} (h : peel path = some (seg, rest)) :
    rest.length < path.length := by
  have hle := (List.dropWhile_sublist (l := path) (· == '/')).length_le
  unfold peel at h
  dsimp only at h
  split at h
  next => simp at h
  next hne =>
    have hpos := List.length_pos_iff.mpr hne
    cases hc : cutAt '/' (path.dropWhile (· == '/')) with
    | none =>
      simp only [hc, Option.getD_none, Option.some.injEq, Prod.mk.injEq] at h
      rw [← h.2, List.length_nil]
      omega
    | some p =>
      have hlen := cutAt_length (show _ = some (p.1, p.2) from hc)
      simp only [hc, Option.getD_some, Option.some.injEq] at h
      rw [h] at hlen
      dsimp only at hlen
      omega

/-- `walk`: the handler found below `node`, and `params` as the walk leaves it. -/
@[semireducible] def walk (node : Node H) (path method : Text) (params : Params) :
    Option H × Params :=
  match _h : peel path with
  | none => (node.handlerFor method, params)
  | some (seg, rest) =>
    let (found, params) := match node.statics seg with
      | some child => walk child rest method params
      | none => (none, params)
    match found with
    | some handler => (some handler, params)
    | none =>
      match node.param with
      | none => (none, params)
      | some (name, child) =>
        match walk child rest method (params.insert name seg) with
        | (some handler, params) => (some handler, params)
        | (none, params) => (none, params.remove name)
termination_by path.length
decreasing_by all_goals exact peel_decreases _h

def Router.find (router : Router H) (method path : Text) : Option (H × Params) :=
  match walk router.root path method .empty with
  | (some handler, params) => some (handler, params)
  | (none, _) => none

/-- The arguments of one call of `Router::add`. -/
structure Route (H : Type) where
  method : Text
  pattern : Text
  handler : H

def Router.ofRoutes (u : UnicodeCase) (routes : List (Route H)) : Router H :=
  routes.foldl (fun router r => router.add u r.method r.pattern r.handler) {}

end Kernway
