import KaLang.Proofs.Syntax.Formed
import KaLang.Proofs.Syntax.Shown
import KaLang.Proofs.Text.Outline
import KaLang.Proofs.Text.Parts
import KaLang.Proofs.Token.Spelling

/-!
Captions of nodes. A label is cut at its blanks into a word for the kind of node, what there is to
say about the node, and its span (`Caption.ofLabel_detail`); and the span is read back but for its
offsets (`Span.ofLabel_label`).
-/

namespace KaLang

/-! ### Spans -/

namespace Span

/-- The number in front of a text, counted from zero. -/
def readNumber (text : List Char) : Nat := Nat.ofDigitChars 10 (text.takeWhile Char.isDigit) 0 - 1

/-- What stands behind the number in front of a text and the sign after it. -/
def behindNumber (text : List Char) : List Char := (text.dropWhile Char.isDigit).tail

/-- The span that a label stands for, without its offsets. -/
def ofLabel (text : List Char) : Span :=
  let line := text.tail
  let column := behindNumber line
  let lastLine := behindNumber column
  let lastColumn := behindNumber lastLine
  ⟨⟨0, readNumber line, readNumber column⟩, ⟨0, readNumber lastLine, readNumber lastColumn⟩⟩

variable {rest : List Char}

theorem readNumber_toDigits (number : Nat) (hrest : ∀ char ∈ rest.head?, char.isDigit = false) :
    readNumber (Nat.toDigits 10 (number + 1) ++ rest) = number ∧
      behindNumber (Nat.toDigits 10 (number + 1) ++ rest) = rest.tail := by
  have hdigits : ∀ char ∈ Nat.toDigits 10 (number + 1), char.isDigit = true :=
    fun char hchar => Nat.isDigit_of_mem_toDigits (by decide) (by decide) hchar
  obtain ⟨htake, hdrop⟩ := Lexeme.takeWhile_of_head hdigits hrest
  rw [readNumber, behindNumber, htake, hdrop, Nat.ofDigitChars_ten_toDigits]
  exact ⟨rfl, rfl⟩

theorem toList_label (s : Span) :
    s.label.toList = '@' :: (Nat.toDigits 10 (s.first.line + 1) ++
      ':' :: (Nat.toDigits 10 (s.first.column + 1) ++
      '-' :: (Nat.toDigits 10 (s.last.line + 1) ++
      ':' :: (Nat.toDigits 10 (s.last.column + 1) ++ [])))) := by
  have hplace (p : Position) :
      p.label = toString (p.line + 1) ++ ":" ++ toString (p.column + 1) := rfl
  simp [label, hplace]

theorem ofLabel_label (s : Span) : ofLabel s.label.toList = s.shown := by
  have hcolon : ∀ text : List Char, ∀ char ∈ (':' :: text).head?, char.isDigit = false := by
    rintro text char ⟨⟩
    rfl
  have hdash : ∀ text : List Char, ∀ char ∈ ('-' :: text).head?, char.isDigit = false := by
    rintro text char ⟨⟩
    rfl
  have hend : ∀ char ∈ ([] : List Char).head?, char.isDigit = false := nofun
  simp only [toList_label, ofLabel, List.tail_cons, readNumber_toDigits _ (hcolon _),
    readNumber_toDigits _ (hdash _), readNumber_toDigits _ hend]
  rfl

/-- A label is made of digits and signs. -/
theorem not_mem_label {char : Char} (hdigit : char.isDigit = false) (hat : char ≠ '@')
    (hcolon : char ≠ ':') (hdash : char ≠ '-') (s : Span) : char ∉ s.label.toList := by
  have hdigits : ∀ number, char ∉ Nat.toDigits 10 number := by
    intro number hmem
    rw [Nat.isDigit_of_mem_toDigits (by decide) (by decide) hmem] at hdigit
    cases hdigit
  simp [toList_label, hdigits, hat, hcolon, hdash]

end Span

/-! ### Labels -/

/-- What the label of a node says: a word for the kind of node, the words behind it, and where the
    last of these is a span, that span and what stands ahead of it. -/
structure Caption where
  kind : String
  words : List (List Char)
  detail : String
  span : Span

namespace Caption

/-- The caption that a label stands for. -/
def ofLabel (label : String) : Caption :=
  let words := splitAtEach ' ' label.toList
  ⟨String.ofList (words.headD []), words.tail,
    String.ofList ([' '].intercalate words.tail.dropLast), .ofLabel (words.getLastD [])⟩

/-- Whether a word can name a kind of node. -/
def isKind (kind : String) : Bool := kind ≠ "" && kind.toList.all Char.isAlpha

variable {kind : String} {char : Char}

theorem not_mem_kind (hkind : isKind kind = true) (hchar : char.isAlpha = false) :
    char ∉ kind.toList := by
  intro hmem
  rw [List.all_eq_true.mp (Bool.and_eq_true_iff.mp hkind).2 char hmem] at hchar
  cases hchar

/-- A label starts with a letter. -/
theorem exists_head_kind (hkind : isKind kind = true) (rest : String) :
    ∃ first, (kind ++ rest).toList.head? = some first ∧ first.isAlpha = true := by
  obtain ⟨hsome, hletters⟩ := Bool.and_eq_true_iff.mp hkind
  cases hchars : kind.toList with
  | nil => exact absurd (String.toList_eq_nil_iff.mp hchars) (of_decide_eq_true hsome)
  | cons first more =>
    refine ⟨first, by simp [hchars], List.all_eq_true.mp hletters first ?_⟩
    rw [hchars]
    exact List.mem_cons_self

theorem isLabel_kind (hkind : isKind kind = true) {rest : String} (hrest : '\n' ∉ rest.toList) :
    Outline.IsLabel (kind ++ rest) where
  oneLine := by simp [not_mem_kind hkind, hrest]
  start := by
    obtain ⟨first, hfirst, hletter⟩ := exists_head_kind hkind rest
    rw [hfirst]
    rintro ⟨⟩
    cases hletter

/-- The words of a label that starts with a word for a kind of node. -/
theorem splitAtEach_label (hkind : isKind kind = true) (rest : String) :
    splitAtEach ' ' (kind ++ " " ++ rest).toList =
      kind.toList :: splitAtEach ' ' rest.toList := by
  rw [String.toList_append, String.toList_append, List.append_assoc]
  refine (splitAtEach_append_cons ' ' kind.toList rest.toList).trans ?_
  rw [splitAtEach_of_not_mem (not_mem_kind hkind rfl)]
  rfl

/-- The word for the kind of node, and the words behind it, are the first ones of the label. -/
theorem exists_ofLabel (hkind : isKind kind = true) (rest : String) :
    ∃ detail span, ofLabel (kind ++ " " ++ rest) =
      ⟨kind, splitAtEach ' ' rest.toList, detail, span⟩ := by
  simp only [ofLabel, splitAtEach_label hkind]
  exact ⟨_, _, by rw [List.headD_cons, List.tail_cons, String.ofList_toList]⟩

theorem splitAtEach_span (span : Span) :
    splitAtEach ' ' span.label.toList = [span.label.toList] :=
  splitAtEach_of_not_mem
    (Span.not_mem_label (by decide) (by decide) (by decide) (by decide) span)

theorem newline_not_mem_span (span : Span) : '\n' ∉ span.label.toList :=
  Span.not_mem_label (by decide) (by decide) (by decide) (by decide) span

theorem ofLabel_plain (hkind : isKind kind = true) (span : Span) :
    ofLabel (kind ++ " " ++ span.label) = ⟨kind, [span.label.toList], "", span.shown⟩ := by
  simp only [ofLabel, splitAtEach_label hkind, splitAtEach_span]
  simp [Span.ofLabel_label]

theorem ofLabel_detail (hkind : isKind kind = true) (detail : String) (span : Span) :
    ofLabel (kind ++ " " ++ detail ++ " " ++ span.label) =
      ⟨kind, splitAtEach ' ' detail.toList ++ [span.label.toList], detail, span.shown⟩ := by
  have hwords : splitAtEach ' ' (kind ++ " " ++ detail ++ " " ++ span.label).toList =
      kind.toList :: (splitAtEach ' ' detail.toList ++ [span.label.toList]) := by
    have htext : (detail ++ " " ++ span.label).toList =
        detail.toList ++ ' ' :: span.label.toList := by simp
    have hlabel : kind ++ " " ++ detail ++ " " ++ span.label =
        kind ++ " " ++ (detail ++ " " ++ span.label) := by simp [String.append_assoc]
    rw [hlabel, splitAtEach_label hkind, htext, splitAtEach_append_cons, splitAtEach_span]
  simp only [ofLabel, hwords]
  simp [Span.ofLabel_label, intercalate_splitAtEach, List.getLast?_cons]

end Caption

/-! ### Names -/

/-- The names among words, without the signs between them. -/
def namesAmong (words : List (List Char)) : List String :=
  words.map fun word => String.ofList (word.filter isWordChar)

variable {names : List Identifier} {ahead behind : List Char}

theorem filter_around {name : String} (hname : IsName name)
    (hahead : ∀ char ∈ ahead, isWordChar char = false)
    (hbehind : ∀ char ∈ behind, isWordChar char = false) :
    (ahead ++ name.toList ++ behind).filter isWordChar = name.toList := by
  rw [List.filter_append, List.filter_append, List.filter_eq_self.mpr hname.chars,
    List.filter_eq_nil_iff.mpr fun char hchar => by simp [hahead char hchar],
    List.filter_eq_nil_iff.mpr fun char hchar => by simp [hbehind char hchar],
    List.nil_append, List.append_nil]

/-- Names in a row, perhaps in brackets, are read back from its words. -/
theorem namesAmong_row (hsome : names ≠ []) (hnames : ∀ name ∈ names, IsName name.name)
    (hahead : ∀ char ∈ ahead, isWordChar char = false ∧ char ≠ ' ')
    (hbehind : ∀ char ∈ behind, isWordChar char = false ∧ char ≠ ' ') :
    namesAmong (splitAtEach ' ' (ahead ++ (Identifier.row names).toList ++ behind)) =
      names.map Identifier.name := by
  induction names generalizing ahead with
  | nil => exact absurd rfl hsome
  | cons name names ih =>
    obtain ⟨hname, hlater⟩ := List.forall_mem_cons.mp hnames
    have hblank {text : List Char} (htext : ∀ char ∈ text, isWordChar char = false ∧ char ≠ ' ') :
        ' ' ∉ text := fun hmem => (htext ' ' hmem).2 rfl
    have hword : ' ' ∉ name.name.toList := hname.not_mem (by decide)
    have hsigns {signs : List Char} (hsigns : ∀ char ∈ signs, isWordChar char = false) :
        (ahead ++ name.name.toList ++ signs).filter isWordChar = name.name.toList :=
      filter_around hname (fun char hchar => (hahead char hchar).1) hsigns
    cases names with
    | nil =>
      have hrow : (Identifier.row [name]).toList = name.name.toList := by
        simp [Identifier.row]
      have hnone : ' ' ∉ ahead ++ name.name.toList ++ behind := by
        simp [hblank hahead, hblank hbehind, hword]
      rw [hrow, splitAtEach_of_not_mem hnone, namesAmong, List.map_singleton,
        hsigns fun char hchar => (hbehind char hchar).1, String.ofList_toList]
      rfl
    | cons next names =>
      have hrow : (Identifier.row (name :: next :: names)).toList =
          name.name.toList ++ [','] ++ ' ' :: (Identifier.row (next :: names)).toList := by
        simp [Identifier.row, String.toList_intercalate]
      have hnone : ' ' ∉ ahead ++ name.name.toList ++ [','] := by
        simp [hblank hahead, hword]
      have hrest : namesAmong (splitAtEach ' '
          ([] ++ (Identifier.row (next :: names)).toList ++ behind)) =
            (next :: names).map Identifier.name :=
        ih (List.cons_ne_nil _ _) hlater (List.forall_mem_nil _)
      have hfirst : (ahead ++ name.name.toList ++ [',']).filter isWordChar = name.name.toList :=
        hsigns (by simp [isWordChar])
      have htext : ahead ++ (Identifier.row (name :: next :: names)).toList ++ behind =
          ahead ++ name.name.toList ++ [','] ++
            ' ' :: ([] ++ (Identifier.row (next :: names)).toList ++ behind) := by
        simp [hrow]
      rw [htext, splitAtEach_append_cons, splitAtEach_of_not_mem hnone, List.singleton_append,
        namesAmong, List.map_cons, hfirst, String.ofList_toList]
      exact congrArg (name.name :: ·) hrest

/-- Names that are joined have no sign in them but those between the names. -/
theorem not_mem_intercalate {separator : String} {char : Char} (hchar : isWordChar char = false)
    (hseparator : char ∉ separator.toList) (hnames : ∀ name ∈ names, IsName name.name) :
    char ∉ (separator.intercalate (names.map Identifier.name)).toList := by
  have hother : ∀ other ∈ (separator.intercalate (names.map Identifier.name)).toList,
      other ≠ char := by
    rw [String.toList_intercalate]
    refine forall_mem_intercalate (fun other hother heq => hseparator (heq ▸ hother)) ?_
    simp only [List.mem_map]
    rintro _ ⟨_, ⟨name, hname, rfl⟩, rfl⟩ other hother rfl
    exact (hnames name hname).not_mem hchar hother
  exact fun hmem => hother char hmem rfl

/-- The path of a module is its segments, which have no points. -/
theorem splitAtEach_path {source : List Identifier} (hsome : source ≠ [])
    (hsource : ∀ segment ∈ source, IsName segment.name) :
    (splitAtEach '.' (".".intercalate (source.map Identifier.name)).toList).map String.ofList =
      source.map Identifier.name := by
  rw [String.toList_intercalate]
  refine (congrArg (List.map String.ofList) (splitAtEach_intercalate ?_ ?_)).trans ?_
  · simpa using hsome
  · simp only [List.mem_map]
    rintro _ ⟨_, ⟨segment, hsegment, rfl⟩, rfl⟩
    exact (hsource segment hsegment).not_mem (by decide)
  · simp

/-! ### Details -/

/-- The operator of an assignment, and whether it is marked as local, by what its label says. -/
def AssignmentOperator.ofDetail? (detail : String) : Option (AssignmentOperator × Bool) :=
  let all := plain :: BinaryOperator.all.map compound
  ((all.map (·, false)) ++ all.map (·, true)).find? fun (op, isLocal) =>
    op.text ++ (if isLocal then " local" else "") = detail

theorem AssignmentOperator.ofDetail?_text (op : AssignmentOperator) (isLocal : Bool) :
    ofDetail? (op.text ++ (if isLocal then " local" else "")) = some (op, isLocal) := by
  cases op with
  | plain => cases isLocal <;> decide
  | compound op => cases op <;> cases isLocal <;> decide

/-- The name of a method by what its label says. -/
def MethodName.ofDetail (detail : String) : MethodName :=
  match BinaryOperator.all.find? fun op => (operator op (.point .zero)).label = detail with
  | some op => operator op (.point .zero)
  | none => identifier (.ofName detail)

theorem MethodName.ofDetail_operator (op : BinaryOperator) (span : Span) :
    ofDetail (operator op span).label = (operator op span).shown := by
  cases op <;> rfl

theorem MethodName.ofDetail_identifier {name : Identifier} (hname : IsName name.name) :
    ofDetail (identifier name).label = (identifier name).shown := by
  have hnone : BinaryOperator.all.find? (fun op =>
      (operator op (.point .zero)).label = name.name) = none := by
    refine List.find?_eq_none.mpr fun op _ heq => ?_
    have hquote : '"' ∈ name.name.toList := by
      rw [← of_decide_eq_true heq]
      simp [label]
    exact hname.not_mem (by decide) hquote
  rw [ofDetail, label, hnone]
  rfl

/-- What the host provides, and its name, by what a label says. -/
def HostKind.ofDetail? (detail : String) : Option (HostKind × String) :=
  match (splitAtEach ' ' detail.toList).map String.ofList with
  | ["variable", name] => some (.variable, name)
  | ["class", name] => some (.classType, name)
  | _ => none

theorem HostKind.ofDetail?_label {name : String} (hname : IsName name) (kind : HostKind) :
    ofDetail? (kind.label ++ " " ++ name) = some (kind, name) := by
  have hwords : (splitAtEach ' ' (kind.label ++ " " ++ name).toList).map String.ofList =
      [kind.label, name] := by
    have htext : (kind.label ++ " " ++ name).toList = kind.label.toList ++ ' ' :: name.toList := by
      simp
    have hlabel : ' ' ∉ kind.label.toList := by cases kind <;> decide
    rw [htext, splitAtEach_append_cons, splitAtEach_of_not_mem hlabel,
      splitAtEach_of_not_mem (hname.not_mem (by decide))]
    simp
  rw [ofDetail?, hwords]
  cases kind <;> rfl

/-- How an import binds its names, by the word for it. -/
def ImportKind.ofLabel? : String → Option ImportKind
  | "Module" => some wholeModule
  | "Default" => some defaultExport
  | "Specified" => some namedExports
  | _ => none

/-- How an import binds which names of which module, by what its label says. -/
def ImportKind.ofDetail? (detail : String) : Option (ImportKind × List String × List String) :=
  match splitAtEach ' ' detail.toList with
  | kind :: path :: names =>
    (ofLabel? (String.ofList kind)).map fun kind =>
      (kind, (splitAtEach '.' path).map String.ofList, namesAmong names)
  | _ => none

/-- What is said about an import. -/
def ImportKind.detail (kind : ImportKind) (source names : List Identifier) : String :=
  kind.label ++ " " ++ ".".intercalate (source.map Identifier.name) ++ " [" ++
    Identifier.row names ++ "]"

theorem ImportKind.Binds.names_ne_nil {kind : ImportKind} {source names : List Identifier}
    (hbinds : kind.Binds source names) : names ≠ [] := by
  cases kind with
  | wholeModule =>
    obtain ⟨last, -, rfl⟩ := hbinds
    exact List.cons_ne_nil _ _
  | defaultExport =>
    obtain ⟨name, rfl⟩ := hbinds
    exact List.cons_ne_nil _ _
  | namedExports => exact hbinds

theorem ImportKind.newline_not_mem_detail {source names : List Identifier}
    (hsource : ∀ segment ∈ source, IsName segment.name)
    (hnames : ∀ name ∈ names, IsName name.name) (kind : ImportKind) :
    '\n' ∉ (kind.detail source names).toList := by
  have hkind : '\n' ∉ kind.label.toList := by cases kind <;> decide
  have hpath : '\n' ∉ (".".intercalate (source.map Identifier.name)).toList :=
    not_mem_intercalate (by decide) (by decide) hsource
  have hrow : '\n' ∉ (Identifier.row names).toList :=
    not_mem_intercalate (by decide) (by decide) hnames
  rw [detail]
  simp only [String.toList_append, List.mem_append, not_or]
  exact ⟨⟨⟨⟨⟨hkind, by decide⟩, hpath⟩, by decide⟩, hrow⟩, by decide⟩

theorem ImportKind.ofDetail?_detail {source names : List Identifier} (hsome : source ≠ [])
    (hsource : ∀ segment ∈ source, IsName segment.name) (hbound : names ≠ [])
    (hnames : ∀ name ∈ names, IsName name.name) (kind : ImportKind) :
    ofDetail? (kind.detail source names) =
      some (kind, source.map Identifier.name, names.map Identifier.name) := by
  have htext : (kind.detail source names).toList =
      kind.label.toList ++ ' ' :: ((".".intercalate (source.map Identifier.name)).toList ++
        ' ' :: (['['] ++ (Identifier.row names).toList ++ [']'])) := by
    simp [detail]
  have hlabel : ' ' ∉ kind.label.toList := by cases kind <;> decide
  have hwords : splitAtEach ' ' (kind.detail source names).toList =
      kind.label.toList :: (".".intercalate (source.map Identifier.name)).toList ::
        splitAtEach ' ' (['['] ++ (Identifier.row names).toList ++ [']']) := by
    rw [htext, splitAtEach_append_cons, splitAtEach_append_cons, splitAtEach_of_not_mem hlabel,
      splitAtEach_of_not_mem (not_mem_intercalate (by decide) (by decide) hsource)]
    rfl
  have hkind : ofLabel? (String.ofList kind.label.toList) = some kind := by
    cases kind <;> decide
  have hrow : namesAmong (splitAtEach ' ' (['['] ++ (Identifier.row names).toList ++ [']'])) =
      names.map Identifier.name :=
    namesAmong_row hbound hnames (by simp [isWordChar]) (by simp [isWordChar])
  rw [ofDetail?, hwords]
  simp only [hkind, splitAtEach_path hsome hsource, hrow]
  rfl

end KaLang
