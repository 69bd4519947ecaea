/-!
# Paths

Two paths are the same if they have the same components. Repeated and trailing
slashes and the component `.` do not count, except that a relative path may
begin with `.`, and that does. `..` is a component like any other, because what
it leads to depends on the files.
-/

namespace AmbiguitySearch.Path

/-- The pieces between the slashes of a path, empty ones included. -/
def pieces (path : String) : List String :=
  (path.toList.splitOnP (· == '/')).map String.ofList

def isAbsolute (path : String) : Bool := path.toList.head? == some '/'

/-- The components that paths are compared by. -/
def components (path : String) : List String :=
  let named := fun piece : String => piece != "" && piece != "."
  match pieces path with
  | "." :: rest => "." :: rest.filter named
  | "" :: rest => if isAbsolute path then "/" :: rest.filter named else rest.filter named
  | rest => rest.filter named

/-- Whether two paths have the same components. -/
def same (first second : String) : Bool := components first == components second

end AmbiguitySearch.Path
