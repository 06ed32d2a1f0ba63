import ModuleGraph.Syntax.Tree

/-! # Names bound by patterns and declarations

Names come in the order of the text. A place that is assigned to binds nothing. -/

namespace ModuleGraph.Syntax

mutual

def Pattern.boundNames : Pattern → List String
  | .name n => [n]
  | .place _ => []
  | .object fields rest => fieldNames fields ++ restNames rest
  | .array elements rest => elementNames elements ++ restNames rest
  | .withDefault target _ => target.boundNames

def Field.boundNames : Field → List String
  | .mk _ value => value.boundNames

def fieldNames : List Field → List String
  | [] => []
  | f :: fields => f.boundNames ++ fieldNames fields

def elementNames : List (Option Pattern) → List String
  | [] => []
  | p :: elements => restNames p ++ elementNames elements

/-- The names of a pattern that may be absent. -/
def restNames : Option Pattern → List String
  | none => []
  | some p => p.boundNames

end

def Declarator.boundNames : Declarator → List String
  | .mk target _ => target.boundNames

/-- The names bound by a list of declarators. -/
def declaratorNames (declarators : List Declarator) : List String :=
  declarators.flatMap Declarator.boundNames

def Declaration.boundNames : Declaration → List String
  | .variables _ declarators => declaratorNames declarators
  | .function name _ => name.toList
  | .class name _ => name.toList

end ModuleGraph.Syntax
