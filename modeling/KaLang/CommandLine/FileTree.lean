import KaLang.Text.Lines

/-!
Trees of files, seen from a directory that paths start in. A path is followed name by name, and
every name but the last has to be a directory's.
-/

namespace KaLang

/-- The names on the way from the starting directory to a place. -/
abbrev Place := List String

/-- What is at a place. A file that is not text has no content here. -/
inductive FileEntry where
  | directory
  | file (content : Option String)
deriving DecidableEq

/-- Places and what is there. A place on the way to another one is a directory, listed or not. -/
structure FileTree where
  entries : List (Place × FileEntry)
deriving DecidableEq

namespace FileTree

/-- What is listed at a place. -/
def entry? (tree : FileTree) (place : Place) : Option FileEntry :=
  tree.entries.lookup place

/-- Whether a place is a directory. -/
def isDirectory (tree : FileTree) (place : Place) : Bool :=
  place.isEmpty || tree.entry? place = some .directory ||
    tree.entries.any fun entry => place.isPrefixOf entry.1 && place ≠ entry.1

/-- The parts of a path. -/
def parts (path : String) : List String :=
  (splitAtEach '/' path.toList).map String.ofList

/-- Whether something can have a name: of at most 255 bytes, and none of them zero. -/
def isName (part : String) : Bool :=
  part.utf8ByteSize ≤ 255 && !part.toList.contains '\x00'

/-- Follow the parts of a path from a place. -/
def follow (tree : FileTree) (place : Place) : List String → Option Place
  | [] => some place
  | part :: more =>
    if !tree.isDirectory place then none
    else if part = "" || part = "." then follow tree place more
    else if part = ".." then
      if place.isEmpty then none else follow tree place.dropLast more
    else if isName part then follow tree (place ++ [part]) more
    else none

/-- The place that a path leads to. A path from the root leads out of the tree. -/
def place? (tree : FileTree) (path : String) : Option Place :=
  if path.toList.head? = some '/' then none else tree.follow [] (parts path)

/-- The text of the file at a path. -/
def read (tree : FileTree) (path : String) : Option String :=
  match (tree.place? path).bind tree.entry? with
  | some (.file content) => content
  | _ => none

/-- Whether there is a file at a path. -/
def isFile (tree : FileTree) (path : String) : Bool :=
  match (tree.place? path).bind tree.entry? with
  | some (.file _) => true
  | _ => false

/-- Replace or add what is at a place. -/
def put (entries : List (Place × FileEntry)) (place : Place) (entry : FileEntry) :
    List (Place × FileEntry) :=
  match entries with
  | [] => [(place, entry)]
  | other :: more =>
    if other.1 = place then (place, entry) :: more else other :: put more place entry

/-- Write a text to a path. The directory has to be there, and nothing is written over one. -/
def write (tree : FileTree) (path : String) (text : String) : Option FileTree :=
  match tree.place? path with
  | none => none
  | some place =>
    if tree.isDirectory place then none
    else some ⟨put tree.entries place (.file (some text))⟩

/-- A tree of files and directories given by paths. A path that ends in a slash is a directory's. -/
def ofPaths (paths : List (String × Option String)) : FileTree :=
  ⟨paths.foldl (fun entries (path, content) =>
    let names := (parts path).filter fun part => part ≠ "" && part ≠ "."
    let entry := if path.toList.getLast? = some '/' then .directory else .file content
    put entries names entry) []⟩

/-- The files of a tree that another one does not have, or has with another content. -/
def changes (before after : FileTree) : List (String × String) :=
  after.entries.filterMap fun (place, entry) =>
    match entry with
    | .file (some text) =>
      if before.entry? place = some entry then none else some ("/".intercalate place, text)
    | _ => none

end FileTree

end KaLang
