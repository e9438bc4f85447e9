import Mathlib.Data.List.Basic

/-!
# Names in directories

A directory maps names to objects, which are directories again or files. `follow` reaches an object by
one name after the other; nothing lies below a file.
-/

namespace NameTree

variable {D F N : Type*}

/-- A directory or a file. -/
inductive Object (D F : Type*)
  | directory (d : D)
  | file (f : F)

variable {lookup : D → N → Option (Object D F)}

/-- The object that the names lead to, one after the other. -/
def follow (lookup : D → N → Option (Object D F)) : Object D F → List N → Option (Object D F)
  | o, [] => some o
  | .directory d, c :: names => (lookup d c).bind fun o => follow lookup o names
  | .file _, _ :: _ => none

@[simp] theorem follow_nil (o : Object D F) : follow lookup o [] = some o := by
  cases o <;> rfl

theorem follow_directory (d : D) (c : N) (names : List N) :
    follow lookup (.directory d) (c :: names) =
      (lookup d c).bind fun o => follow lookup o names := rfl

@[simp] theorem follow_file (f : F) (c : N) (names : List N) :
    follow lookup (.file f) (c :: names) = none := rfl

end NameTree
