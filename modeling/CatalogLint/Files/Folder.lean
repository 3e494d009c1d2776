import CatalogLint.Files.Path

/-!
# Folders and the catalogs in them

A folder holds files and folders under their names. The catalogs under some paths are the files
named by the paths, and the files in the folders named by the paths and in the folders inside,
as long as nothing on the way down is hidden. They are listed once each, in the order of their
paths.
-/
namespace CatalogLint

inductive Folder (α : Type) where
  | empty
  | file (name : String) (content : α) (rest : Folder α)
  | folder (name : String) (inside : Folder α) (rest : Folder α)
  deriving DecidableEq, Repr

/-- What a path can lead to. -/
inductive Place (α : Type) where
  | file (content : α)
  | folder (inside : Folder α)
  deriving DecidableEq, Repr

namespace Folder
variable {α : Type}

/-- Writes a file of the folder itself. -/
def write (name : String) (content : α) : Folder α → Folder α
  | empty => file name content empty
  | file m c rest =>
      if m = name then file m content rest else file m c (rest.write name content)
  | folder m inside rest => folder m inside (rest.write name content)

/-- Folders one inside the other, the innermost being what `change` makes of an empty one. -/
def nest (change : Folder α → Folder α) : List String → Folder α
  | [] => change empty
  | n :: ns => folder n (nest change ns) empty

/-- Changes the folder that some names lead down to; the folders on the way are made. -/
def within (change : Folder α → Folder α) (f : Folder α) (names : List String) : Folder α :=
  match f, names with
  | f, [] => change f
  | empty, n :: ns => folder n (nest change ns) empty
  | file m c rest, n :: ns => file m c (rest.within change (n :: ns))
  | folder m inside rest, n :: ns =>
      if m = n then folder m (inside.within change ns) rest
      else folder m inside (rest.within change (n :: ns))

/-- Writes a file under a path, and makes all folders on the way. -/
def add (f : Folder α) (path : String) (content : α) : Folder α :=
  let made := (Path.foldersOnWay path).foldl (within id) f
  match (Path.names path).getLast? with
  | none => made
  | some name => made.within (write name content) (Path.names path).dropLast

/-- The folder with these files; of two files under one path the last stays. -/
def ofFiles (files : List (String × α)) : Folder α :=
  files.foldl (fun f (path, content) => f.add path content) empty

def get? (name : String) : Folder α → Option (Place α)
  | empty => none
  | file m c rest => if m = name then some (.file c) else rest.get? name
  | folder m inside rest => if m = name then some (.folder inside) else rest.get? name

/-- The files in a folder that is reached by `path`. -/
def files (path : String) : Folder α → List (String × α)
  | empty => []
  | file n c rest =>
      if Path.isHidden n then rest.files path else (Path.join path n, c) :: rest.files path
  | folder n inside rest =>
      if Path.isHidden n then rest.files path
      else inside.files (Path.join path n) ++ rest.files path

end Folder

namespace Place
variable {α : Type}

def files (path : String) : Place α → List (String × α)
  | .file c => [(path, c)]
  | .folder f => f.files path

end Place

/-- Keeps the first of neighbours with the same key. -/
def dropRepeats {α β : Type} [BEq β] (key : α → β) : List α → List α
  | [] => []
  | a :: as => a :: (dropRepeats key as).dropWhile fun b => key a == key b

/-- The catalogs under the paths; the standard input is none. -/
def catalogs {α : Type} (place? : String → Option (Place α)) (paths : List String) :
    List (String × α) :=
  let under (path : String) : List (String × α) :=
    if Path.isInput path then [] else (place? path).elim [] (Place.files path)
  let found := ((paths.flatMap under).filter fun f => Path.isCatalog f.1).map fun f =>
    (Path.shorten f.1, f.2)
  dropRepeats (fun f => Path.steps f.1)
    (found.mergeSort fun f g => (Path.compare f.1 g.1).isLE)

end CatalogLint
