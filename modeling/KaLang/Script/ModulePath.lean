/-!
Paths of imported modules. A module is looked for beside the file that imports it; one that is
found there is imported by a relative path, and any other by its own name.
-/

namespace KaLang.ModulePath

/-- A path with every backslash as a slash. -/
def normalize (path : String) : List Char :=
  path.toList.map fun char => if char = '\\' then '/' else char

/-- The directory part of a path: what stands before the last slash, but the slash itself where
    nothing stands before it; empty where there is no slash. -/
def directory (path : List Char) : List Char :=
  match (path.reverse.dropWhile (· ≠ '/')) with
  | [] => []
  | ['/'] => ['/']
  | _ :: before => before.reverse

/-- The path without slashes at its end. -/
def trimEnd (path : List Char) : List Char :=
  (path.reverse.dropWhile (· = '/')).reverse

/-- The path without slashes at its ends. -/
def trim (path : List Char) : List Char :=
  trimEnd (path.dropWhile (· = '/'))

/-- A path below a directory. -/
def join (directory relative : List Char) : List Char :=
  match trimEnd directory with
  | [] => if directory.head? = some '/' then '/' :: trim relative else trim relative
  | base => base ++ '/' :: trim relative

/-- The segments of a module's path, joined by slashes. -/
def joined (segments : List String) : String :=
  "/".intercalate segments

/-- The file in which a module is looked for when `file` imports it. -/
def candidate (file : String) (segments : List String) : String :=
  String.ofList (join (directory (normalize file)) (joined segments).toList) ++ ".ka"

/-- How a module is named in the script, given whether its file was found. -/
def specifier (segments : List String) (found : Bool) : String :=
  if found then "./" ++ joined segments ++ ".js" else joined segments

end KaLang.ModulePath
