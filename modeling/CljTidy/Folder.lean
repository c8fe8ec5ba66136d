/-
  The command line over a folder of text files.

  A folder maps paths to texts; a directory exists as long as a file is in it.  A path is followed
  part by part, and what is wrong first is what is reported.  Around the folder there are
  directories too, but what is written there is out of sight.  `run` does what the program does when
  started in the folder.
-/
import CljTidy.CommandLine

namespace CljTidy

/-- Files by the parts of their path. -/
abbrev Folder := List (List String × String)

namespace Folder

/-- Something else than a usage error or a syntax error that ends the program. -/
inductive FileFault
  | noPath | nulInPath | nameTooLong | notFound | isDirectory | notDirectory
  deriving Repr, DecidableEq

/-! ## Places -/

/-- Where a path leads: to a place in the folder, to a directory around it, or out of sight. -/
inductive Place
  | inside (parts : List String)
  | directory
  | unseen
  deriving Repr, DecidableEq

/-- The number of bytes a name may have. -/
def maxNameSize : Nat := 255

/-- The number of bytes a whole path may have. -/
def maxPathSize : Nat := 4095

/-- The name is short enough for a directory entry. -/
def fits (name : String) : Bool := name.utf8ByteSize ≤ maxNameSize

/-- There is a directory at the place. -/
def hasDirectory (folder : Folder) (place : List String) : Bool :=
  place.isEmpty || folder.any fun (file, _) => place.isPrefixOf file && place ≠ file

/-- Follows a path from a directory around the folder, where nothing is known by name. -/
def walkOutside : List String → Except FileFault Place
  | [] => .ok .directory
  | part :: rest =>
      if part = ".." then walkOutside rest
      else if !fits part then .error .nameTooLong
      else if rest.isEmpty then .ok .unseen
      else .error .notFound

/-- Follows a path from the root directory: only the null device is known there. -/
def walkRoot : List String → Except FileFault Place
  | ["dev"] => .ok .directory
  | ["dev", "null"] => .ok .unseen
  | parts => do
      match ← walkOutside parts with
      | .directory => return .directory
      | _ => throw .notFound

/-- Follows a path from a place in the folder, through directories only. -/
def walk (folder : Folder) : List String → List String → Except FileFault Place
  | place, [] => .ok (.inside place)
  | place, part :: rest =>
      if folder.hasDirectory place then
        if part = ".." then
          if place.isEmpty then walkOutside rest else walk folder place.dropLast rest
        else if !fits part then .error .nameTooLong
        else walk folder (place ++ [part]) rest
      else if (folder.lookup place).isSome then .error .notDirectory
      else .error .notFound

/-- Where a path leads. -/
def place (folder : Folder) (path : String) : Except FileFault Place :=
  if '\x00' ∈ path.toList then .error .nulInPath
  else if maxPathSize < (CommandLine.shownPath path).utf8ByteSize then .error .nameTooLong
  else if CommandLine.rootOf path = "" then walk folder [] (CommandLine.parts path)
  else walkRoot (CommandLine.parts path)

/-! ## Files -/

/-- The contents of a file. -/
def read (folder : Folder) (path : String) : Except FileFault String := do
  match ← folder.place path with
  | .directory => throw .isDirectory
  | .unseen => throw .notFound
  | .inside place =>
      if folder.hasDirectory place then throw .isDirectory
      else
        match folder.lookup place with
        | some text => return text
        | none => throw .notFound

/-- The folder with a file written. -/
def write (folder : Folder) (path text : String) : Except FileFault Folder := do
  match ← folder.place path with
  | .directory => throw .isDirectory
  | .unseen => return folder
  | .inside place =>
      if folder.hasDirectory place then throw .isDirectory
      else return (place, text) :: folder.filter fun (file, _) => file ≠ place

end Folder

namespace CommandLine

/-! ## The program -/

/-- How the program ends. -/
inductive Exit
  | success
  | refused
  | failed (message : String)
  deriving Repr, DecidableEq

/-- What the program leaves behind. -/
structure Outcome where
  exit : Exit := .success
  failure : Option Folder.FileFault := none
  output : String := ""
  errors : String := ""
  folder : Folder

/-- Puts the formatted text where the command line says, with the journal in `log`. -/
def deliver (folder : Folder) (log text : String) : Option Value → Outcome
  | none => { output := text ++ "\n", errors := log, folder }
  | some .missing => { failure := some .noPath, errors := log, folder }
  | some (.path path) =>
      match folder.write path (text ++ "\n") with
      | .error fault => { failure := some fault, errors := log, folder }
      | .ok folder => { output := wrote path, errors := log, folder }

/-- Formats a file of the folder.  A path that leads to no file is a usage error, unless it could
    not be followed because of a name that is too long. -/
def runWith (folder : Folder) (args : Arguments) : Outcome :=
  match args.input with
  | .missing => { failure := some .noPath, folder }
  | .path path =>
      match folder.read path with
      | .error .nameTooLong => { failure := some .nameTooLong, folder }
      | .error _ => { exit := .refused, errors := (UsageError.noSuchFile path).report, folder }
      | .ok contents =>
          let job := job args.verbose path contents
          match job.outcome with
          | .error message => { exit := .failed message, errors := job.log, folder }
          | .ok text => deliver folder job.log text args.output

/-- Runs the program in a folder. -/
def run (argv : List String) (folder : Folder) : Outcome :=
  match parse argv with
  | .error e => { exit := .refused, errors := e.report, folder }
  | .ok none => { output := helpText, folder }
  | .ok (some args) => runWith folder args

end CommandLine

end CljTidy
