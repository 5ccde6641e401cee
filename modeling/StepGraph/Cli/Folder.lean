import StepGraph.Text.Blank

/-!
# Files

A `Folder` is a folder as a command sees it: the files and folders in it by their paths. Paths are
walked part by part, so a file is no folder on the way, and `..` leads back. What lies outside the
folder is not known; no file is found there. `FileProblem` is why a file could not be read or
written.
-/

set_option autoImplicit false

namespace StepGraph.Cli

inductive FileProblem
  | missing
  | isFolder
  | notFolder
  | other (reason : String)
  deriving DecidableEq

/-- The message about a path as it is shown. -/
def FileProblem.message (path : String) : FileProblem → String
  | .missing => "File not found: " ++ path
  | .isFolder => "Cannot read " ++ path ++ ": Is a directory"
  | .notFolder => "Cannot read " ++ path ++ ": Not a directory"
  | .other reason => "Cannot read " ++ path ++ ": " ++ reason

namespace PathName

/-- The parts of a path; empty ones and single points mean nothing. -/
def parts (path : String) : List String :=
  ((Text.splitAround '/' path.toList).map String.ofList).filter fun part =>
    part != "" && part != "."

/-- What an absolute path starts with. Two slashes are kept, any other number is one. -/
def root (path : String) : String :=
  match (path.toList.takeWhile (· == '/')).length with
  | 0 => ""
  | 2 => "//"
  | _ => "/"

/-- The path without the parts that mean nothing. -/
def shown (path : String) : String :=
  match root path ++ "/".intercalate (parts path) with
  | "" => "."
  | text => text

end PathName

/-- A file is known by its octets. -/
inductive Content
  | file (octets : List Nat)
  | folder
  deriving DecidableEq

abbrev Folder := List (String × Content)

/-- What a path leads to. -/
inductive Place
  | found (name : String) (content : Content)
  /-- Nothing, though there is a folder to hold it. -/
  | free (name : String)
  /-- A folder outside. -/
  | outside
  | blocked (problem : FileProblem)

namespace Folder

def nameOf (at_ : List String) : String :=
  "/".intercalate at_

/-- What is known under a name. Whatever holds a file is a folder. -/
def contentOf (folder : Folder) (at_ : List String) : Option Content :=
  match at_ with
  | [] => some .folder
  | _ =>
    let name := nameOf at_
    match folder.lookup name with
    | some content => some content
    | none =>
      if folder.any fun entry => (name ++ "/").toList.isPrefixOf entry.1.toList then some .folder
      else none

/-- Walks on from a place inside the folder, or outside if there is none. -/
def walk (folder : Folder) : Option (List String) → List String → Place
  | none, [] => .outside
  | some at_, [] =>
    match folder.contentOf at_ with
    | some content => .found (nameOf at_) content
    | none => .free (nameOf at_)
  | none, part :: rest => if part = ".." then walk folder none rest else .blocked .missing
  | some at_, part :: rest =>
    match folder.contentOf at_ with
    | none => .blocked .missing
    | some (.file _) => .blocked .notFolder
    | some .folder =>
      if part = ".." then walk folder (if at_.isEmpty then none else some at_.dropLast) rest
      else walk folder (some (at_ ++ [part])) rest

def locate (folder : Folder) (path : String) : Place :=
  walk folder (if PathName.root path = "" then some [] else none) (PathName.parts path)

def read (folder : Folder) (path : String) : Except FileProblem (List Nat) :=
  match folder.locate path with
  | .found _ (.file octets) => .ok octets
  | .found _ .folder | .outside => .error .isFolder
  | .free _ => .error .missing
  | .blocked problem => .error problem

/-- The folder with a file written, and the name of that file. -/
def write (folder : Folder) (path : String) (octets : List Nat) :
    Except FileProblem (Folder × String) :=
  match folder.locate path with
  | .found _ .folder | .outside => .error .isFolder
  | .found name (.file _) =>
    .ok (folder.map fun e => if e.1 == name then (name, .file octets) else e, name)
  | .free name => .ok (folder ++ [(name, .file octets)], name)
  | .blocked problem => .error problem

end Folder

end StepGraph.Cli
