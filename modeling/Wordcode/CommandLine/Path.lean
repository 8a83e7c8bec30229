/-!
# Paths

The names of files, brought into one form: no empty part and no `.` between slashes. A path from the
root begins with one slash, or with two if it had exactly two.
-/

namespace Wordcode

/-- The parts of a path between slashes that are neither empty nor `.`. -/
def pathParts (path : String) : List String :=
  ((path.splitOn "/").filter fun part => part ≠ "" && part ≠ ".")

/-- The slashes that a path in its one form begins with. -/
def pathRoot (path : String) : String :=
  match (path.toList.takeWhile (· = '/')).length with
  | 0 => ""
  | 2 => "//"
  | _ => "/"

/-- A path in its one form, which is `.` for a path without parts. -/
def normalizePath (path : String) : String :=
  let text := pathRoot path ++ "/".intercalate (pathParts path)
  if text.isEmpty then "." else text

end Wordcode
