/-!
Where the script of a file goes when nothing else is asked for: next to the file, under its name
with another ending.
-/

namespace KaLang

/-- A file name up to its last point, the point included. A name without a point, or with none
    behind its first character, has no ending and stays whole. -/
def upToEnding (name : List Char) : List Char :=
  match name.reverse.dropWhile (· ≠ '.') with
  | [] | ['.'] => name
  | before => before.reverse

/-- The stem of a file name: what stands before the point of its ending, if it has one. -/
def stem (name : List Char) : List Char :=
  match name.reverse.dropWhile (· ≠ '.') with
  | [] | ['.'] => name
  | _ :: before => before.reverse

/-- A path with the last name's ending replaced. The old ending is taken off first; where that
    leaves no name, or the name of the directory above, there is nothing to put the new one on. -/
def withExtension (path : String) (extension : String) : String :=
  let chars := path.toList.reverse
  let name := upToEnding (chars.takeWhile (· ≠ '/')).reverse
  let directory := (chars.dropWhile (· ≠ '/')).reverse
  if name = [] || name = ['.', '.'] then String.ofList (directory ++ name)
  else String.ofList (directory ++ stem name) ++ "." ++ extension

end KaLang
