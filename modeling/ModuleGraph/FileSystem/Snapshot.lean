import ModuleGraph.FileSystem.Tree
import ModuleGraph.Json.Basic
import ModuleGraph.Syntax.Estree

/-! # Snapshots of directories

A snapshot lists files as JSON objects with a `path`. A `source` is the text of a file, and `ast`
its syntax tree if it is a module; a `hex` file is not a text; a `dir` is an empty directory. -/

namespace ModuleGraph.FileSystem

/-- The syntax tree of a text, if it is a module. -/
def programOf (j : Json) : Option Syntax.Program := (j.get? "ast").map Syntax.Estree.program

def nodeOf (j : Json) : Node :=
  if j.flag "dir" then .directory
  else
    match j.text? "source" with
    | some source => .file (.text source (programOf j))
    | none => .file .bytes

def Tree.ofSnapshot (directory : Place) (files : List Json) : Tree :=
  files.foldl (fun t j => t.put directory ((j.text? "path").getD "") (nodeOf j))
    [(directory, .directory)]

end ModuleGraph.FileSystem
