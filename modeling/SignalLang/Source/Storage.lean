/-!
# Stored files

A `Storage` is what a directory tree holds: text files under slash-separated paths. A path is
read after removing `.` and resolving `..`, so `./lib//a` and `lib/a` name one file. Every proper
prefix of a stored path is a directory; directories that hold no file are listed by themselves.
-/

namespace SignalLang

/-- Splits a path at its slashes and drops empty and `.` components, resolving `..`. -/
def pathComponents (rooted : Bool) (path : String) : List String :=
  let step (acc : List String) (part : String) : List String :=
    if part = "" ∨ part = "." then acc
    else if part = ".." then
      match acc with
      | [] => if rooted then [] else [".."]
      | last :: rest => if last = ".." then ".." :: acc else rest
    else part :: acc
  ((path.splitOn "/").foldl step []).reverse

/-- Whether a path starts at the root. -/
def pathIsRooted (path : String) : Bool := path.startsWith "/"

/-- The shortest path equivalent to `path`; the empty path becomes `.`. -/
def cleanPath (path : String) : String :=
  if pathIsRooted path then "/" ++ "/".intercalate (pathComponents true path)
  else
    match pathComponents false path with
    | [] => "."
    | parts => "/".intercalate parts

/-- Joins the non-empty parts with slashes and cleans the result. -/
def joinPath (dir name : String) : String :=
  match [dir, name].filter (· ≠ "") with
  | [] => ""
  | parts => cleanPath ("/".intercalate parts)

/-- Text files by path, and clean paths of directories. -/
structure Storage where
  files : List (String × String) := []
  directories : List String := []
deriving Repr, Inhabited

namespace Storage

/-- Why a path cannot be read as a file. -/
inductive Failure where
  | missing
  | isDirectory
  | notDirectory
  | invalidName
deriving DecidableEq, Repr

/-- The system's words for a failure, after the call and the path. -/
def Failure.text (path : String) : Failure → String
  | .missing => s!"open {path}: no such file or directory"
  | .isDirectory => s!"read {path}: is a directory"
  | .notDirectory => s!"open {path}: not a directory"
  | .invalidName => s!"open {path}: invalid argument"

/-- The words for a path that cannot be looked up. -/
def Failure.lookupText (path : String) : Failure → String
  | .notDirectory => s!"lstat {path}: not a directory"
  | .invalidName => s!"lstat {path}: invalid argument"
  | _ => s!"lstat {path}: no such file or directory"

/-- The words for a path that cannot be written. -/
def Failure.writeText (path : String) : Failure → String
  | .missing => s!"open {path}: no such file or directory"
  | .isDirectory => s!"open {path}: is a directory"
  | .notDirectory => s!"open {path}: not a directory"
  | .invalidName => s!"open {path}: invalid argument"

/-- What stands at a clean path. -/
inductive Entry where
  | file (content : String)
  | directory
  | belowFile
  | nothing
deriving DecidableEq, Repr

/-- Whether `dir` is a proper ancestor of `path`, both clean. -/
def isAncestor (dir path : String) : Bool :=
  if dir = "." then !pathIsRooted path && !path.startsWith ".." else path.startsWith (dir ++ "/")

/-- Looks up a clean path. The current directory and its ancestors always exist. -/
def entry (s : Storage) (path : String) : Entry :=
  match s.files.find? (fun f => cleanPath f.1 = path) with
  | some (_, content) => .file content
  | none =>
    if path = "." ∨ path = "/" ∨ (path.splitOn "/").all (· = "..") then .directory
    else if s.directories.contains path || s.directories.any (isAncestor path) then .directory
    else if s.files.any (fun f => isAncestor path (cleanPath f.1)) then .directory
    else if s.files.any (fun f => isAncestor (cleanPath f.1) path) then .belowFile
    else .nothing

/-- Reads the file at `path`. -/
def read (s : Storage) (path : String) : Except Failure String :=
  if path.any (· = Char.ofNat 0) then .error .invalidName
  else if path = "" then .error .missing
  else
    match s.entry (cleanPath path) with
    | .file content => if path.endsWith "/" then .error .notDirectory else .ok content
    | .directory => .error .isDirectory
    | .belowFile => .error .notDirectory
    | .nothing => .error .missing

/-- The directory that holds a clean path. -/
def parentOf (path : String) : String :=
  match (path.splitOn "/").dropLast with
  | [] => "."
  | [""] => "/"
  | parts => "/".intercalate parts

/-- Puts `content` at a clean path, replacing what was there. -/
def put (s : Storage) (path content : String) : Storage :=
  if s.files.any (fun f => cleanPath f.1 = path) then
    { s with files := s.files.map fun f => if cleanPath f.1 = path then (f.1, content) else f }
  else { s with files := s.files ++ [(path, content)] }

/-- Writes `content` at `path`. The directory must exist, and no directory may stand there. -/
def write (s : Storage) (path content : String) : Except Failure Storage :=
  if path.any (· = Char.ofNat 0) then .error .invalidName
  else if path = "" then .error .missing
  else
    let clean := cleanPath path
    match s.entry clean with
    | .directory => .error .isDirectory
    | .belowFile => .error .notDirectory
    | .file _ => if path.endsWith "/" then .error .notDirectory else .ok (s.put clean content)
    | .nothing =>
      if path.endsWith "/" then .error .isDirectory
      else if s.entry (parentOf clean) = .directory then .ok (s.put clean content)
      else .error .missing

/-- Every file below a directory with its clean path; a file is below itself. -/
def filesBelow (s : Storage) (dir : String) : Except Failure (List (String × String)) :=
  if dir.any (· = Char.ofNat 0) then .error .invalidName
  else if dir = "" then .error .missing
  else
    let clean := cleanPath dir
    let files := s.files.map fun f => (cleanPath f.1, f.2)
    match s.entry clean with
    | .file content => .ok [(clean, content)]
    | .directory => .ok (files.filter fun f => isAncestor clean f.1)
    | .belowFile => .error .notDirectory
    | .nothing => .error .missing

end Storage

end SignalLang
