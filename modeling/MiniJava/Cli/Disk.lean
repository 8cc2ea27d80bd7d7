/-!
# Disks

A disk is a tree of files in a working directory. Directories are the beginnings
of the paths of files. The directories above the working directory, and the root
of absolute paths, are there but hold nothing else.
-/

namespace MiniJava.Cli

inductive FileError where
  | notFound
  | isDirectory
  | notDirectory
  | notText
  | other (message : String)
  deriving DecidableEq, Repr

def FileError.message : FileError → String
  | notFound => "No such file or directory (os error 2)"
  | isDirectory => "Is a directory (os error 21)"
  | notDirectory => "Not a directory (os error 20)"
  | notText => "stream did not contain valid UTF-8"
  | other message => message

structure Disk where
  files : List (List String × ByteArray)

namespace Disk

inductive Entry where
  | file (content : ByteArray)
  | directory
  | missing

def isOutside (path : List String) : Bool :=
  path == ["/"] || path.all (· == "..")

def entry (d : Disk) (path : List String) : Entry :=
  match d.files.find? (·.1 == path) with
  | some (_, content) => .file content
  | none =>
    if isOutside path || d.files.any (path.isPrefixOf ·.1) then .directory else .missing

def parent (path : List String) : List String :=
  if path = ["/"] then path
  else if path.all (· == "..") then path ++ [".."]
  else path.dropLast

/-- Follows the names of a path from a directory. Every name but the last must lead to a
directory. -/
def walk (d : Disk) (here : List String) : List String → Except FileError (List String)
  | [] => .ok here
  | name :: rest =>
    match d.entry here with
    | .file _ => .error .notDirectory
    | .missing => .error .notFound
    | .directory =>
      if name = "" ∨ name = "." then walk d here rest
      else if name = ".." then walk d (parent here) rest
      else walk d (here ++ [name]) rest

/-- Where a written path starts, and the names in it. -/
def namesOf (path : String) : List String × List String :=
  let names := (path.toList.splitOnP (· == '/')).map String.ofList
  if path.toList.head? = some '/' then (["/"], names.drop 1) else ([], names)

def read (d : Disk) (path : String) : Except FileError String :=
  let (start, names) := namesOf path
  match d.walk start names with
  | .error e => .error e
  | .ok found =>
    match d.entry found with
    | .missing => .error .notFound
    | .directory => .error .isDirectory
    | .file content =>
      match String.fromUTF8? content with
      | some text => .ok text
      | none => .error .notText

def put (d : Disk) (path : List String) (content : ByteArray) : Disk :=
  ⟨d.files.filter (·.1 != path) ++ [(path, content)]⟩

/-- Names without the empty ones that slashes at the end leave. -/
def withoutSlashes (names : List String) : List String :=
  (names.reverse.dropWhile (· == "")).reverse

/-- Writes a text to a file, which may be new; its directory must be there. A path that
ends in a slash or in dots means a directory. -/
def write (d : Disk) (path text : String) : Except FileError Disk :=
  let (start, names) := namesOf path
  let kept := withoutSlashes names
  match d.walk start kept.dropLast with
  | .error e => .error e
  | .ok directory =>
    match d.entry directory, kept.getLast? with
    | .file _, _ => .error .notDirectory
    | .missing, _ => .error .notFound
    | .directory, some name =>
      if kept ≠ names ∨ name = "." ∨ name = ".." then .error .isDirectory
      else
        match d.entry (directory ++ [name]) with
        | .directory => .error .isDirectory
        | _ => .ok (d.put (directory ++ [name]) text.toUTF8)
    | .directory, none => .error .isDirectory

end Disk

end MiniJava.Cli
