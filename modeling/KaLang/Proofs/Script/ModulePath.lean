import KaLang.Proofs.Text.Parts
import KaLang.Proofs.Token.Spelling
import KaLang.Script.Emission
import Mathlib.Data.List.Induction

/-!
Where modules are looked for. A path is told by its route: whether it starts at the root, and which
names are on it. The path that is asked for goes through the directory of the importing file and on
along the segments of the module (`ModulePath.ofPath_candidate`), and so does the specifier that is
written in the script when it is followed from that directory (`Emitter.run_moduleSpecifier`).
-/

namespace KaLang

/-! ### Routes -/

/-- Which way a path leads: whether from the root or from where it is followed, and along which
    names. -/
@[ext]
structure Route where
  fromRoot : Bool
  names : List String
deriving DecidableEq

namespace Route

/-- The names among parts of a path. Nothing between two slashes is not a name. -/
def namesAmong (parts : List (List Char)) : List String :=
  (parts.filter (· ≠ [])).map String.ofList

/-- The route of a path. -/
def ofPath (path : List Char) : Route :=
  ⟨path.head? = some '/', namesAmong (splitAtEach '/' path)⟩

/-- The route of the directory that a path's last part is in: all that stands before the last slash
    belongs to it. -/
def ofDirectory (path : List Char) : Route :=
  ⟨path.head? = some '/', namesAmong (splitAtEach '/' path).dropLast⟩

/-- The names after one more part of a path: nothing or a point stays, and two points go back. -/
def step (names : List String) (part : List Char) : List String :=
  if part = [] ∨ part = ['.'] then names
  else if part = ['.', '.'] then names.dropLast
  else names ++ [String.ofList part]

/-- The route of a relative path that is followed from where a route leads. -/
def follow (route : Route) (path : List Char) : Route :=
  { route with names := (splitAtEach '/' path).foldl step route.names }

/-- A name with one ending for another, if it has that one. -/
def replaceEnding (old new name : String) : String :=
  if old.toList.isSuffixOf name.toList then
    String.ofList (name.toList.take (name.length - old.length)) ++ new
  else name

/-- The route with one ending for another at its last name. -/
def withEnding (route : Route) (old new : String) : Route :=
  { route with
    names := route.names.dropLast ++ route.names.getLast?.toList.map (replaceEnding old new) }

theorem namesAmong_append (parts more : List (List Char)) :
    namesAmong (parts ++ more) = namesAmong parts ++ namesAmong more := by
  simp [namesAmong]

theorem names_ofPath_append_slash (ahead behind : List Char) :
    (ofPath (ahead ++ '/' :: behind)).names = (ofPath ahead).names ++ (ofPath behind).names := by
  rw [ofPath, splitAtEach_append_cons, namesAmong_append, ofPath, ofPath]

theorem names_ofPath_nil : (ofPath []).names = [] := rfl

theorem names_ofPath_slash (path : List Char) :
    (ofPath ('/' :: path)).names = (ofPath path).names :=
  names_ofPath_append_slash [] path

/-- Names are followed one by one. -/
theorem foldl_step {parts : List (List Char)} (names : List String)
    (hparts : ∀ part ∈ parts, part ≠ [] ∧ part ≠ ['.'] ∧ part ≠ ['.', '.']) :
    parts.foldl step names = names ++ parts.map String.ofList := by
  induction parts generalizing names with
  | nil => simp
  | cons part more ih =>
    obtain ⟨⟨hsome, hpoint, hpoints⟩, hmore⟩ := List.forall_mem_cons.mp hparts
    rw [List.foldl_cons, ih _ hmore]
    simp [step, hsome, hpoint, hpoints]

theorem replaceEnding_append (old new name : String) :
    replaceEnding old new (name ++ old) = name ++ new := by
  have hsuffix : old.toList.isSuffixOf (name ++ old).toList = true := by simp
  have hname : (name ++ old).toList.take ((name ++ old).length - old.length) = name.toList := by
    rw [String.toList_append, String.length_append, Nat.add_sub_cancel]
    exact List.take_left' String.length_toList
  rw [replaceEnding, if_pos hsuffix, hname, String.ofList_toList]

theorem withEnding_concat (fromRoot : Bool) (names : List String) (old new name : String) :
    withEnding ⟨fromRoot, names ++ [name ++ old]⟩ old new = ⟨fromRoot, names ++ [name ++ new]⟩ := by
  simp [withEnding, replaceEnding_append]

end Route

namespace ModulePath

/-! ### Slashes at the ends of a path -/

theorem trimEnd_concat (path : List Char) (char : Char) :
    trimEnd (path ++ [char]) = if char = '/' then trimEnd path else path ++ [char] := by
  by_cases hchar : char = '/' <;> simp [trimEnd, hchar]

theorem trimEnd_prefix (path : List Char) : trimEnd path <+: path := by
  rw [← List.reverse_suffix, trimEnd, List.reverse_reverse]
  exact List.dropWhile_suffix _

theorem head?_trimEnd {path : List Char} (hsome : trimEnd path ≠ []) :
    (trimEnd path).head? = path.head? := by
  obtain ⟨rest, hrest⟩ := trimEnd_prefix path
  rw [← congrArg List.head? hrest, List.head?_append_of_ne_nil _ hsome]

/-- Slashes at the ends of a path do not change the names on it. -/
theorem names_trimEnd (path : List Char) :
    (Route.ofPath (trimEnd path)).names = (Route.ofPath path).names := by
  induction path using List.reverseRecOn with
  | nil => rfl
  | append_singleton path char ih =>
    rw [trimEnd_concat]
    split
    · next hchar =>
      rw [ih, hchar, Route.names_ofPath_append_slash, Route.names_ofPath_nil, List.append_nil]
    · rfl

theorem names_dropWhile (path : List Char) :
    (Route.ofPath (path.dropWhile (· = '/'))).names = (Route.ofPath path).names := by
  induction path with
  | nil => rfl
  | cons char more ih =>
    by_cases hchar : char = '/'
    · rw [hchar, Route.names_ofPath_slash, ← ih]
      simp
    · simp [hchar]

theorem names_trim (path : List Char) :
    (Route.ofPath (trim path)).names = (Route.ofPath path).names := by
  rw [trim, names_trimEnd, names_dropWhile]

/-- A trimmed path does not start at the root. -/
theorem head?_trim_ne (path : List Char) : (trim path).head? ≠ some '/' := by
  intro hslash
  have hsome : trim path ≠ [] := by
    intro hnil
    rw [hnil] at hslash
    cases hslash
  rw [trim, head?_trimEnd hsome] at hslash
  have hfirst := List.head?_dropWhile_not (· = '/') path
  rw [hslash] at hfirst
  simp at hfirst

theorem trim_of_ends {path : List Char} (hfirst : path.head? ≠ some '/')
    (hlast : path.getLast? ≠ some '/') : trim path = path := by
  have hstart : path.dropWhile (· = '/') = path := by
    cases path with
    | nil => rfl
    | cons char more =>
      have hchar : char ≠ '/' := by simpa using hfirst
      simp [hchar]
  rw [trim, hstart]
  induction path using List.reverseRecOn with
  | nil => rfl
  | append_singleton path char ih =>
    have hchar : char ≠ '/' := by simpa using hlast
    rw [trimEnd_concat, if_neg hchar]

/-! ### Paths that are put together -/

/-- A path below a directory goes through the directory and then on. -/
theorem ofPath_join (directory relative : List Char) :
    Route.ofPath (join directory relative) =
      ⟨(Route.ofPath directory).fromRoot,
        (Route.ofPath directory).names ++ (Route.ofPath relative).names⟩ := by
  have hnames := names_trimEnd directory
  rw [← names_trim relative, ← hnames, join]
  split
  · next hbase =>
    rw [hbase, Route.names_ofPath_nil, List.nil_append]
    split
    · next hroot =>
      refine Route.ext ?_ (Route.names_ofPath_slash _)
      simp [Route.ofPath, hroot]
    · next hroot =>
      refine Route.ext ?_ rfl
      simp [Route.ofPath, hroot, head?_trim_ne]
  · next base hsome =>
    refine Route.ext ?_ (Route.names_ofPath_append_slash _ _)
    have hhead := head?_trimEnd hsome
    obtain ⟨first, more, hbase⟩ := List.exists_cons_of_ne_nil hsome
    rw [hbase, List.head?_cons] at hhead
    simp [Route.ofPath, hbase, ← hhead]

/-- What stands behind the last slash is passed over. -/
theorem dropWhile_append {name : List Char} (hname : '/' ∉ name) (ahead : List Char) :
    (ahead ++ name).reverse.dropWhile (· ≠ '/') = ahead.reverse.dropWhile (· ≠ '/') := by
  have hskip : ∀ char ∈ name.reverse, decide (char ≠ '/') = true := fun char hchar =>
    decide_eq_true (ne_of_mem_of_not_mem (List.mem_reverse.mp hchar) hname)
  rw [List.reverse_append, List.dropWhile_append_of_pos hskip]

theorem directory_of_not_mem {path : List Char} (hpath : '/' ∉ path) : directory path = [] := by
  have hrest : path.reverse.dropWhile (· ≠ '/') = [] := dropWhile_append hpath []
  rw [directory, hrest]

theorem directory_append {name : List Char} (hname : '/' ∉ name) (ahead : List Char) :
    directory (ahead ++ '/' :: name) = if ahead = [] then ['/'] else ahead := by
  have hrest : (ahead ++ '/' :: name).reverse.dropWhile (· ≠ '/') = '/' :: ahead.reverse := by
    rw [List.append_cons, dropWhile_append hname]
    simp
  rw [directory, hrest]
  cases ahead using List.reverseRecOn with
  | nil => rfl
  | append_singleton ahead char => simp

/-- The directory of a file leads along all names that have a slash behind them. -/
theorem ofPath_directory (path : List Char) :
    Route.ofPath (directory path) = Route.ofDirectory path := by
  by_cases hslash : '/' ∈ path
  · obtain ⟨name, ahead, hreverse, hname⟩ :=
      List.eq_append_cons_of_mem (List.mem_reverse.mpr hslash)
    have hpath : path = ahead.reverse ++ '/' :: name.reverse := by
      rw [← List.reverse_eq_iff.mpr hreverse.symm]
      simp
    have hlast : '/' ∉ name.reverse := by simpa using hname
    generalize ahead.reverse = ahead, name.reverse = name at hpath hlast
    rw [Route.ofDirectory, hpath, directory_append hlast, splitAtEach_append_cons,
      splitAtEach_of_not_mem hlast, List.dropLast_concat]
    split
    · next hahead =>
      rw [hahead]
      rfl
    · next hahead =>
      obtain ⟨first, more, rfl⟩ := List.exists_cons_of_ne_nil hahead
      rfl
  · have hfirst : path.head? ≠ some '/' := fun hhead => hslash (List.mem_of_mem_head? hhead)
    rw [directory_of_not_mem hslash, Route.ofDirectory, splitAtEach_of_not_mem hslash]
    simp [Route.ofPath, splitAtEach, Route.namesAmong, hfirst]

/-! ### Segments -/

/-- Whether a part of a path is a name on it: it is not empty, does not start with a point, and has
    no slash. -/
structure IsSegment (part : List Char) : Prop where
  start : ∃ first ∈ part.head?, first ≠ '.'
  noSlash : '/' ∉ part

/-- A name with an ending is a name on a path. -/
theorem IsSegment.of_name {name : String} (hname : IsName name) {ending : List Char}
    (hending : '/' ∉ ending) : IsSegment (name.toList ++ ending) := by
  obtain ⟨first, more, htext, hstart⟩ := hname.exists_start
  refine ⟨⟨first, by simp [htext], fun heq => ?_⟩, fun hslash => ?_⟩
  · rw [heq] at hstart
    exact absurd hstart (by decide)
  · rcases List.mem_append.mp hslash with hslash | hslash
    · exact absurd (hname.chars _ hslash) (by decide)
    · exact hending hslash

theorem IsSegment.ne_nil {part : List Char} (hpart : IsSegment part) : part ≠ [] := by
  rintro rfl
  obtain ⟨first, hfirst, -⟩ := hpart.start
  cases hfirst

theorem IsSegment.not_points {part : List Char} (hpart : IsSegment part) :
    part ≠ ['.'] ∧ part ≠ ['.', '.'] := by
  obtain ⟨first, hfirst, hne⟩ := hpart.start
  constructor <;> rintro rfl <;> exact hne (Option.some.inj hfirst).symm

variable {parts : List (List Char)}

/-- What stands ahead of the last part does not depend on it. -/
theorem exists_intercalate_concat (parts : List (List Char)) :
    ∃ ahead, ∀ last, ['/'].intercalate (parts ++ [last]) = ahead ++ last := by
  induction parts with
  | nil => exact ⟨[], fun last => List.intercalate_singleton⟩
  | cons part more ih =>
    obtain ⟨ahead, hahead⟩ := ih
    refine ⟨part ++ '/' :: ahead, fun last => ?_⟩
    rw [List.cons_append, List.intercalate_cons_of_ne_nil (by simp), hahead]
    simp

theorem trim_intercalate (hparts : ∀ part ∈ parts, IsSegment part) :
    trim (['/'].intercalate parts) = ['/'].intercalate parts := by
  apply trim_of_ends
  · cases parts with
    | nil => simp
    | cons part more =>
      have hpart := hparts part List.mem_cons_self
      have hhead : (['/'].intercalate (part :: more)).head? = part.head? := by
        cases more with
        | nil => rw [List.intercalate_singleton]
        | cons next more =>
          rw [List.intercalate_cons_cons, List.append_assoc,
            List.head?_append_of_ne_nil _ hpart.ne_nil]
      rw [hhead]
      exact fun hslash => hpart.noSlash (List.mem_of_mem_head? hslash)
  · cases parts using List.reverseRecOn with
    | nil => simp
    | append_singleton parts last =>
      have hlast := hparts last (by simp)
      obtain ⟨ahead, hahead⟩ := exists_intercalate_concat parts
      rw [hahead, List.getLast?_append_of_ne_nil _ hlast.ne_nil]
      exact fun hslash => hlast.noSlash (List.mem_of_getLast? hslash)

theorem splitAtEach_segments (hsome : parts ≠ []) (hparts : ∀ part ∈ parts, IsSegment part) :
    splitAtEach '/' (['/'].intercalate parts) = parts :=
  splitAtEach_intercalate hsome fun part hpart => (hparts part hpart).noSlash

/-- Joined segments are the names on their path, all of them. -/
theorem names_segments (hsome : parts ≠ []) (hparts : ∀ part ∈ parts, IsSegment part) :
    (Route.ofPath (['/'].intercalate parts)).names = parts.map String.ofList := by
  have hfilter : parts.filter (· ≠ []) = parts :=
    List.filter_eq_self.mpr fun part hpart => decide_eq_true (hparts part hpart).ne_nil
  rw [Route.ofPath, splitAtEach_segments hsome hparts, Route.namesAmong, hfilter]

/-- Segments behind a point are followed one by one. -/
theorem follow_segments (route : Route) (hsome : parts ≠ [])
    (hparts : ∀ part ∈ parts, IsSegment part) :
    route.follow ('.' :: '/' :: ['/'].intercalate parts) =
      ⟨route.fromRoot, route.names ++ parts.map String.ofList⟩ := by
  have hsplit : splitAtEach '/' ('.' :: '/' :: ['/'].intercalate parts) = ['.'] :: parts := by
    rw [← List.singleton_append, splitAtEach_append_cons, splitAtEach_segments hsome hparts]
    rfl
  have hstep : Route.step route.names ['.'] = route.names := if_pos (.inr rfl)
  rw [Route.follow, hsplit, List.foldl_cons, hstep, Route.foldl_step]
  exact fun part hpart => ⟨(hparts part hpart).ne_nil, (hparts part hpart).not_points⟩

theorem join_append {directory relative ending : List Char} (hrelative : trim relative = relative)
    (hending : trim (relative ++ ending) = relative ++ ending) :
    join directory relative ++ ending = join directory (relative ++ ending) := by
  rw [join, join, hrelative, hending]
  split
  · split <;> rfl
  · rw [List.append_assoc, List.cons_append]

/-! ### The path that is asked for -/

/-- The characters of joined segments. -/
theorem toList_joined (segments : List String) :
    (joined segments).toList = ['/'].intercalate (segments.map String.toList) := by
  rw [joined, String.toList_intercalate]
  rfl

variable {folders : List String} {last : String}

/-- What is put behind joined segments is put behind the last one. -/
theorem toList_joined_append (folders : List String) (last : String) (ending : List Char) :
    (joined (folders ++ [last])).toList ++ ending =
      ['/'].intercalate (folders.map String.toList ++ [last.toList ++ ending]) := by
  obtain ⟨ahead, hahead⟩ := exists_intercalate_concat (folders.map String.toList)
  rw [toList_joined, List.map_append, List.map_singleton, hahead, hahead, List.append_assoc]

theorem isSegment_of_mem (hnames : ∀ name ∈ folders ++ [last], IsName name) {ending : List Char}
    (hending : '/' ∉ ending) :
    ∀ part ∈ folders.map String.toList ++ [last.toList ++ ending], IsSegment part := by
  intro part hpart
  rcases List.mem_append.mp hpart with hpart | hpart
  · obtain ⟨name, hname, rfl⟩ := List.mem_map.mp hpart
    have hsegment := IsSegment.of_name (hnames name (by simp [hname])) List.not_mem_nil
    rwa [List.append_nil] at hsegment
  · rw [List.mem_singleton.mp hpart]
    exact IsSegment.of_name (hnames last (by simp)) hending

/-- The path that is asked for leads through the directory of the importing file, and on along the
    segments to a file. -/
theorem ofPath_candidate (file : String) (hnames : ∀ name ∈ folders ++ [last], IsName name) :
    Route.ofPath (candidate file (folders ++ [last])).toList =
      ⟨(Route.ofDirectory (normalize file)).fromRoot,
        (Route.ofDirectory (normalize file)).names ++ (folders ++ [last ++ ".ka"])⟩ := by
  have hplain := toList_joined_append folders last []
  have hending := toList_joined_append folders last ".ka".toList
  have hparts := isSegment_of_mem hnames (List.not_mem_nil : '/' ∉ [])
  have hmore := isSegment_of_mem hnames (by decide : '/' ∉ ".ka".toList)
  rw [List.append_nil] at hplain
  rw [candidate, String.toList_append, String.toList_ofList, join_append, ofPath_join,
    ofPath_directory, hending, names_segments (by simp) hmore]
  · simp [String.ofList_append]
  · rw [hplain, trim_intercalate hparts]
  · rw [hending, trim_intercalate hmore]

end ModulePath

/-- A module is looked for under one path: from the root if the path of the importing file, with
    slashes for its backslashes, starts there, through the names ahead of that path's last slash,
    and on along the segments of the module to a file of that name. If the file is found, the
    specifier leads from the importing file's directory to the script of that very file. -/
theorem Emitter.run_moduleSpecifier (file : String) (files : String → Bool)
    (folders : List Identifier) (last : Identifier) (span : Span) (session : Session)
    (hnames : ∀ segment ∈ folders ++ [last], IsName segment.name) :
    let segments := (folders ++ [last]).map Identifier.name
    let asked := ModulePath.candidate file segments
    let here := Route.ofDirectory (ModulePath.normalize file)
    let found := "./" ++ "/".intercalate segments ++ ".js"
    (moduleSpecifier ⟨file, some files⟩ (folders ++ [last]) span).run session =
        .ok (if files asked then found else "/".intercalate segments)
          { session with probes := session.probes ++ [asked] } ∧
      ((Route.ofPath asked.toList).fromRoot ↔
        (ModulePath.normalize file).head? = some '/') ∧
      (Route.ofPath asked.toList).names =
        here.names ++ (folders.map Identifier.name ++ [last.name ++ ".ka"]) ∧
      (here.follow found.toList).withEnding ".js" ".ka" =
        Route.ofPath asked.toList := by
  intro segments asked here found
  have hsegments : segments = folders.map Identifier.name ++ [last.name] := List.map_append
  have hall : ∀ name ∈ folders.map Identifier.name ++ [last.name], IsName name :=
    hsegments ▸ List.forall_mem_map.mpr hnames
  have hasked := ModulePath.ofPath_candidate file hall
  rw [← hsegments] at hasked
  refine ⟨rfl, by rw [hasked]; simp [Route.ofDirectory], congrArg Route.names hasked, ?_⟩
  have hscript := ModulePath.isSegment_of_mem hall (by decide : '/' ∉ ".js".toList)
  have hjoined := ModulePath.toList_joined_append (folders.map Identifier.name) last.name
    ".js".toList
  have hfound : found.toList =
      '.' :: '/' :: ((ModulePath.joined segments).toList ++ ".js".toList) := by
    simp [found, ModulePath.joined]
  have hfollow : here.follow found.toList =
      ⟨here.fromRoot, here.names ++ folders.map Identifier.name ++ [last.name ++ ".js"]⟩ := by
    rw [hfound, hsegments, hjoined, ModulePath.follow_segments here (by simp) hscript]
    simp [String.ofList_append]
  rw [hasked, hfollow, Route.withEnding_concat, List.append_assoc]

/-- A file below the root, with backslashes and an empty name on its path, imports a module. -/
theorem Emitter.run_moduleSpecifier_backslashes :
    let folders : List Identifier := [⟨"lib", ⟨⟨7, 0, 7⟩, ⟨10, 0, 10⟩⟩⟩]
    let last : Identifier := ⟨"math", ⟨⟨11, 0, 11⟩, ⟨15, 0, 15⟩⟩⟩
    let here : Route := ⟨true, ["a", "b"]⟩
    let asked := "/a//b/lib/math.ka"
    (∀ segment ∈ folders ++ [last], IsName segment.name) ∧
      (moduleSpecifier ⟨"\\a//b\\main.ka", some (· = asked)⟩ (folders ++ [last])
        ⟨⟨0, 0, 0⟩, ⟨15, 0, 15⟩⟩).run ⟨.start, []⟩ = .ok "./lib/math.js" ⟨.start, [asked]⟩ ∧
      Route.ofPath asked.toList = ⟨true, here.names ++ ["lib", "math.ka"]⟩ ∧
      (here.follow "./lib/math.js".toList).withEnding ".js" ".ka" = Route.ofPath asked.toList := by
  intro folders last here asked
  have hlib : IsName "lib" := ⟨⟨'l', rfl, rfl⟩, List.all_eq_true.mp rfl, rfl, by simp⟩
  have hmath : IsName "math" := ⟨⟨'m', rfl, rfl⟩, List.all_eq_true.mp rfl, rfl, by simp⟩
  have hnames : ∀ segment ∈ folders ++ [last], IsName segment.name := by
    simp [folders, last, hlib, hmath]
  have hcandidate : ModulePath.candidate "\\a//b\\main.ka"
      ((folders ++ [last]).map Identifier.name) = asked := by decide
  have hhere : Route.ofDirectory (ModulePath.normalize "\\a//b\\main.ka") = here := by decide
  obtain ⟨hrun, hroot, hasked, hfollow⟩ := run_moduleSpecifier "\\a//b\\main.ka" (· = asked)
    folders last ⟨⟨0, 0, 0⟩, ⟨15, 0, 15⟩⟩ ⟨.start, []⟩ hnames
  have hfound : "./" ++ "/".intercalate ((folders ++ [last]).map Identifier.name) ++ ".js" =
      "./lib/math.js" := by decide
  rw [hcandidate, hfound, if_pos (decide_eq_true rfl)] at hrun
  rw [hcandidate] at hroot hasked
  rw [hcandidate, hhere, hfound] at hfollow
  rw [hhere] at hasked
  exact ⟨hnames, hrun, Route.ext (hroot.mpr rfl) hasked, hfollow⟩

end KaLang
