import Rexx.Text.Basic

/-!
# `Module.Files` — where modules lie

The files that can be loaded as modules, by their paths below the working directory.
-/

namespace Rexx

/-- The files below the working directory: the parts of each path, and what the file holds. -/
abbrev Files (α : Type) := List (List Text × α)

namespace Files

variable {α : Type}

/-- What a path leads to. -/
inductive Found (α : Type) where
  | directory
  | file (path : List Text) (content : α)

def isDirectory (fs : Files α) (path : List Text) : Bool :=
  path.isEmpty || fs.any fun (p, _) => path.isPrefixOf p && path.length < p.length

def follow (fs : Files α) (dir : List Text) : List Text → Option (Found α)
  | [] => some .directory
  | part :: rest =>
    if part.isEmpty || part = "." then follow fs dir rest
    else if part = ".." then if dir.isEmpty then none else follow fs dir.dropLast rest
    else
      let path := dir ++ [part]
      if fs.isDirectory path then follow fs path rest
      else match fs.lookup path, rest with
        | some content, [] => some (.file path content)
        | _, _ => none

def find? (fs : Files α) (path : Text) : Option (Found α) :=
  match Text.untilNul path with
  | [] => none
  | '/' :: _ => none
  | path => follow fs [] (Text.splitAt '/' path)

end Files

end Rexx
