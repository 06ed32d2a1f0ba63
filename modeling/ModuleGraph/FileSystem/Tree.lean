import ModuleGraph.FileSystem.Path
import ModuleGraph.Record.Source

/-! # Directory trees

A place is a directory or a file, given by the names that lead to it from the root. A tree says
what is at each place. A path is followed name by name, and everything on the way, also what a
double dot leaves again, has to be a directory. A path may be followed as a whole, as when a file
is opened, or one part at a time, and then only the path of each place on the way is limited.

Symbolic links are left out: a tree holds directories and files only, so that a place has one path
without dots, and the canonical form of a path is the place that it leads to. Permissions, devices
and files that change while a command runs are left out too. -/

namespace ModuleGraph.FileSystem

/-- The names that lead from the root to a file or a directory. -/
abbrev Place := List String

namespace Place

/-- The absolute path of a place. -/
def text (p : Place) : String := "/" ++ String.intercalate "/" p

/-- The path of a place as shown to people: relative if it lies in the current directory. -/
def shown (p current : Place) : String :=
  if current.isPrefixOf p then String.intercalate "/" (p.drop current.length) else p.text

/-- The place that one part of a path leads to. -/
def enter (p : Place) (part : String) : Place :=
  if isIdle part then p else if part = ".." then p.dropLast else p ++ [part]

end Place

inductive Contents where
  /-- A text, and the program that it is if it is a module. -/
  | text (source : String) (program : Option Syntax.Program)
  /-- Bytes that are not the encoding of a text. -/
  | bytes

inductive Node where
  | directory
  | file (contents : Contents)

/-- What was put at places, the latest first. The directories above these places are there too. -/
abbrev Tree := List (Place × Node)

/-- Why a path leads nowhere, or a file cannot be read. -/
inductive FileError where
  | notFound
  | notDirectory
  | isDirectory
  | nameTooLong
  | notText
  deriving DecidableEq, Repr

def FileError.message : FileError → String
  | .notFound => "No such file or directory (os error 2)"
  | .notDirectory => "Not a directory (os error 20)"
  | .isDirectory => "Is a directory (os error 21)"
  | .nameTooLong => "File name too long (os error 36)"
  | .notText => "stream did not contain valid UTF-8"

/-- The number of bytes that a name may have. -/
def longestName : Nat := 255

/-- The number of bytes that a path may have to be followed as a whole. -/
def longestPath : Nat := 4095

def isTooLong (path : String) : Bool := longestPath < path.utf8ByteSize

namespace Tree

def node? (t : Tree) (p : Place) : Option Node :=
  match t.lookup p with
  | some node => some node
  | none => if p.isEmpty || t.any (fun e => p.isPrefixOf e.1) then some .directory else none

/-- Follows one part of a path. -/
def follow (t : Tree) (p : Place) (part : String) : Except FileError Place :=
  match t.node? p with
  | none => .error .notFound
  | some (.file _) => .error .notDirectory
  | some .directory =>
    if longestName < part.utf8ByteSize then .error .nameTooLong
    else if (t.node? (p.enter part)).isSome then .ok (p.enter part)
    else .error .notFound

/-- Follows one part of a path by the absolute path of the place that it leads to. -/
def advance (t : Tree) (p : Place) (part : String) : Except FileError Place :=
  if isTooLong (p.enter part).text then .error .nameTooLong else t.follow p part

/-- The place that the parts of a path lead to, one part at a time. -/
def walk (t : Tree) (p : Place) (parts : List String) : Except FileError Place :=
  parts.foldlM t.advance p

/-- The place where a path starts. -/
def start (current : Place) (path : String) : Place := if isAbsolute path then [] else current

/-- The place of a path, which may have any length. The empty path has none. -/
def locate (t : Tree) (current : Place) (path : String) : Except FileError Place :=
  if path = "" then .error .notFound else t.walk (start current path) (parts path)

/-- The text at a place, with its program. -/
def read (t : Tree) (p : Place) : Except FileError (String × Option Syntax.Program) :=
  match t.node? p with
  | none => .error .notFound
  | some .directory => .error .isDirectory
  | some (.file .bytes) => .error .notText
  | some (.file (.text source program)) => .ok (source, program)

/-- The text of the file that opening a path gives, with its program. -/
def readPath (t : Tree) (current : Place) (path : String) :
    Except FileError (String × Option Syntax.Program) :=
  if path = "" then .error .notFound
  else if isTooLong path then .error .nameTooLong
  else ((parts path).foldlM t.follow (start current path)).bind t.read

def put (t : Tree) (current : Place) (path : String) (node : Node) : Tree :=
  ((parts path).foldl Place.enter current, node) :: t

end Tree

end ModuleGraph.FileSystem
