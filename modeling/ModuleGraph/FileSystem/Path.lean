/-! # Paths

A path is a text whose parts stand between slashes. Empty parts and parts that are a single dot
name nothing, except that a dot may begin a relative path. -/

namespace ModuleGraph.FileSystem

def parts (path : String) : List String := path.splitOn "/"

def isAbsolute (path : String) : Bool := path.startsWith "/"

def isIdle (part : String) : Bool := part = "" || part = "."

/-- The list without its last elements that name nothing. -/
def trimIdle (parts : List String) : List String := (parts.reverse.dropWhile isIdle).reverse

/-- The beginning of a path that is not part of its body, and the body: the root, a leading dot,
or nothing. -/
def splitLead (path : String) : String × List String :=
  match parts path with
  | "" :: body => if isAbsolute path then ("/", body) else ("", [])
  | "." :: body => (".", body)
  | body => ("", body)

/-- Puts a body behind the beginning of a path. -/
def joinLead (lead : String) (body : List String) : String :=
  let text := String.intercalate "/" body
  if lead = "." then if body.isEmpty then "." else "./" ++ text
  else lead ++ text

/-- The path without its last part that names something. The root and the empty path have no
parent. -/
def parent? (path : String) : Option String :=
  let (lead, body) := splitLead path
  match (trimIdle body).reverse with
  | _ :: before => some (joinLead lead (trimIdle before.reverse))
  | [] => if lead = "." then some "" else none

/-- One path behind another, with one slash between them. -/
def join (base path : String) : String :=
  if isAbsolute path || base = "" then path
  else if base.endsWith "/" then base ++ path
  else base ++ "/" ++ path

/-- The path that a specifier means to the file it stands in: an absolute one stands for itself, a
relative one starts at the directory of the file, others mean no file. `current` is the directory
for a referrer without a parent. -/
def resolveSpecifier (current : String) (referrer : Option String) (specifier : String) :
    Option String :=
  if isAbsolute specifier then some specifier
  else if specifier.startsWith "./" || specifier.startsWith "../" then
    some (join ((referrer.bind parent?).getD current) specifier)
  else none

end ModuleGraph.FileSystem
