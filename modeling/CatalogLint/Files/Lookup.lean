import CatalogLint.Files.Folder

/-!
# Following paths

A path is followed piece by piece, up to what it leads to or to the first piece where it leads
nowhere; the cause found at that piece is the one reported. A name that is too long is found out
when it is looked up, not before.

Relative paths start in a folder of which everything is known. Of the rest of the system only
that is known which every system has; all else there counts as missing.
-/
namespace CatalogLint

/-- Why a path does not lead to bytes that can be read. -/
inductive ReadError where
  | notFound
  | notFolder
  | isFolder
  | nameTooLong
  | zeroInName
  | other (reason : String)
  deriving DecidableEq, Repr

def ReadError.reason : ReadError → String
  | .notFound => "No such file or directory (os error 2)"
  | .notFolder => "Not a directory (os error 20)"
  | .isFolder => "Is a directory (os error 21)"
  | .nameTooLong => "File name too long (os error 36)"
  | .zeroInName => "file name contained an unexpected NUL byte"
  | .other reason => reason

/-- The bytes of a file, or why they cannot be read. -/
abbrev Content :=
  Except ReadError (List UInt8)

namespace Place
variable {α : Type}

/-- Follows pieces down from a place, with `above` the folders around it. From the topmost of
these, `..` leads to `beyond`. -/
def follow (beyond : Folder α) (above : List (Folder α)) :
    Place α → List String → Except ReadError (Place α)
  | p, [] => .ok p
  | .file _, _ :: _ => .error .notFolder
  | .folder f, s :: ss =>
      if s = "" ∨ s = "." then follow beyond above (.folder f) ss
      else if s = ".." then
        match above with
        | [] => follow beyond [] (.folder beyond) ss
        | g :: above => follow beyond above (.folder g) ss
      else if Path.longestName < s.utf8ByteSize then .error .nameTooLong
      else
        match f.get? s with
        | none => .error .notFound
        | some p => follow beyond (f :: above) p ss
termination_by structural _ pieces => pieces

end Place

namespace Folder

/-- The folders that every system has. -/
def systemFolders : List (List String) :=
  [["bin"], ["boot"], ["dev"], ["etc"], ["home"], ["lib"], ["media"], ["mnt"], ["opt"], ["root"],
    ["run"], ["sbin"], ["srv"], ["tmp"], ["usr", "bin"], ["usr", "lib"], ["usr", "local"],
    ["usr", "sbin"], ["usr", "share"], ["var", "lib"], ["var", "log"], ["var", "tmp"]]

/-- Files that every system has. -/
def systemFiles : List String :=
  ["bin/sh", "dev/null", "dev/zero", "etc/hosts", "etc/passwd"]

/-- What is known of a system from its root on. The bytes of its files are not, and are left
out. -/
def system : Folder Content :=
  systemFiles.foldl (fun f path => f.add path (.ok [])) (systemFolders.foldl (within id) empty)

/-- Follows a path from a folder, or from the root of the system. The folder above the root is the
root; the one around a folder is another folder, of which nothing is known. -/
def follow (f : Folder Content) (path : String) : Except ReadError (Place Content) :=
  if path.toList.contains '\x00' then .error .zeroInName
  else if Path.longest < path.utf8ByteSize then .error .nameTooLong
  else
    match path.toList with
    | [] => .error .notFound
    | '/' :: _ => Place.follow system [] (.folder system) (Path.pieces path)
    | _ => Place.follow empty [] (.folder f) (Path.pieces path)

def place? (f : Folder Content) (path : String) : Option (Place Content) :=
  (f.follow path).toOption

/-- The content of the file that a path leads to. -/
def read (f : Folder Content) (path : String) : Content :=
  match f.follow path with
  | .ok (.file c) => c
  | .ok (.folder _) => .error .isFolder
  | .error e => .error e

end Folder

end CatalogLint
