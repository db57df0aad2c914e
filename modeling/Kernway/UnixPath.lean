import Kernway.Utf8

namespace Kernway.UnixPath

/-- `PathBuf::push`: an absolute path takes the place of the one before it. -/
def push (path more : Bytes) : Bytes :=
  if more.head? = some 47 then more
  else if path.getLast?.any (· ≠ 47) then path ++ 47 :: more
  else path ++ more

/-- The directory that a component leads to, as its names from the top on. -/
def enter (dir : List Bytes) (name : Bytes) : List Bytes :=
  if name = [] ∨ name = [46] then dir
  else if name = [46, 46] then dir.dropLast
  else dir ++ [name]

/-- Where a path leads from a directory, in a tree without links. -/
def follow (dir : List Bytes) (path : Bytes) : List Bytes :=
  (path.splitOn 47).foldl enter (if path.head? = some 47 then [] else dir)

@[simp] theorem follow_nil (dir : List Bytes) : follow dir [] = dir := rfl

theorem follow_slash (dir : List Bytes) (path more : Bytes) :
    follow dir (path ++ 47 :: more) = (more.splitOn 47).foldl enter (follow dir (path ++ [47])) := by
  have hsplit : ∀ rest : Bytes,
      (path ++ 47 :: rest).splitOn 47 = path.splitOn 47 ++ rest.splitOn 47 := fun rest =>
    List.splitOn_append_cons_self _ _
  have hhead : (path ++ 47 :: more).head? = (path ++ [47]).head? := by
    cases path <;> rfl
  simp only [follow, hsplit, hhead, List.foldl_append]
  rfl

theorem follow_trailing (dir : List Bytes) {path : Bytes} (h : path ≠ []) :
    follow dir (path ++ [47]) = follow dir path := by
  have hsplit : (path ++ [47]).splitOn 47 = path.splitOn 47 ++ [[]] :=
    List.splitOn_append_cons_self _ _
  have hhead : (path ++ [47]).head? = path.head? := List.head?_append_of_ne_nil path h
  simp only [follow, hsplit, hhead, List.foldl_append]
  rfl

/-- A path pushed onto another leads from where that one leads. -/
theorem follow_push (dir : List Bytes) (path more : Bytes) :
    follow dir (push path more) = follow (follow dir path) more := by
  unfold push
  split
  next habs => simp only [follow, habs, if_true]
  next hrel =>
    have hmore : ∀ dir, follow dir more = (more.splitOn 47).foldl enter dir := fun dir => by
      rw [follow, if_neg hrel]
    cases hlast : path.getLast? with
    | none =>
      rw [List.getLast?_eq_none_iff.mp hlast]
      rfl
    | some b =>
      obtain ⟨init, rfl⟩ := List.getLast?_eq_some_iff.mp hlast
      rw [hmore, Option.any_some]
      split
      next => rw [follow_slash, follow_trailing dir (by simp)]
      next hb =>
        obtain rfl : b = 47 := by simpa using hb
        rw [List.append_assoc, List.singleton_append, follow_slash]

/-- A name that stays in the directory it is looked up in. -/
def Plain (name : Bytes) : Prop := name ≠ [] ∧ name.head? ≠ some 46 ∧ 47 ∉ name

theorem follow_plain {name : Bytes} (h : Plain name) (dir : List Bytes) :
    follow dir name = dir ++ [name] := by
  obtain ⟨hne, hdot, hslash⟩ := h
  have hhead : name.head? ≠ some 47 := fun heq => hslash (List.mem_of_head? heq)
  rw [follow, if_neg hhead, List.splitOn_eq_singleton hslash, List.foldl_cons, List.foldl_nil, enter,
    if_neg, if_neg]
  · rintro rfl
    exact hdot rfl
  · rintro (rfl | rfl)
    · exact hne rfl
    · exact hdot rfl

theorem follow_foldl_push {names : List Bytes} (h : ∀ name ∈ names, Plain name) (dir : List Bytes)
    (path : Bytes) : follow dir (names.foldl push path) = follow dir path ++ names := by
  induction names generalizing path with
  | nil => simp
  | cons name names ih =>
    rw [List.foldl_cons, ih (fun n hn => h n (List.mem_cons_of_mem name hn)), follow_push,
      follow_plain (h name (List.mem_cons_self ..))]
    simp

end Kernway.UnixPath
