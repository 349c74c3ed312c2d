import CurryGen.Text.Pieces

/-!
# Class names

Class names whose segments are separated by backslashes.
-/

namespace CurryGen

/-- The last segment of a class name. -/
def shortName (name : String) : String := (Text.splitAt '\\' name).getLast?.getD name

/-- The class name in a namespace; the empty namespace is the global one. -/
def qualify (namespaceName className : String) : String :=
  if namespaceName = "" then className
  else
    String.ofList (namespaceName.toList.reverse.dropWhile (· == '\\')).reverse ++ "\\" ++ className

/-- Whether a class name has more than one segment, so that it must be imported by name. -/
def isQualified (name : String) : Bool := name.toList.contains '\\'

end CurryGen
