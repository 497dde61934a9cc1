import KaLang.Script.Emission

/-!
What a layout is part of: every layout that another one is put together from stands in it without
a gap.
-/

namespace KaLang

/-- Whether a layout stands within one of several lines. -/
def Layout.OnLine (part : Layout) (lines : List Layout) : Prop := ∃ line ∈ lines, part <:+: line

namespace Layout

variable {part head : Layout} {items : List Layout}

theorem infix_between (hpart : part <:+: head) (ahead behind : Layout) :
    part <:+: ahead ++ head ++ behind :=
  List.infix_append_of_infix_left (List.infix_append_of_infix_right hpart)

theorem infix_intercalate {α : Type} {item : List α} {items : List (List α)}
    (separator : List α) (hitem : item ∈ items) : item <:+: separator.intercalate items := by
  induction items with
  | nil => cases hitem
  | cons first more ih =>
    cases more with
    | nil =>
      obtain rfl := List.mem_singleton.mp hitem
      simp only [List.intercalate_singleton, List.infix_rfl]
    | cons second more =>
      rw [List.intercalate_cons_cons]
      rcases List.mem_cons.mp hitem with rfl | hitem
      · exact List.infix_append_of_infix_left List.infix_append_left
      · exact List.infix_append_of_infix_right (ih hitem)

namespace OnLine

theorem singleton (hpart : part <:+: head) : OnLine part [head] :=
  ⟨head, List.mem_singleton_self head, hpart⟩

theorem tail (hpart : OnLine part items) (first : Layout) : OnLine part (first :: items) := by
  obtain ⟨line, hline, hpart⟩ := hpart
  exact ⟨line, List.mem_cons_of_mem first hline, hpart⟩

theorem append_left (hpart : OnLine part items) (more : List Layout) :
    OnLine part (items ++ more) := by
  obtain ⟨line, hline, hpart⟩ := hpart
  exact ⟨line, List.mem_append_left more hline, hpart⟩

theorem append_right (hpart : OnLine part items) (ahead : List Layout) :
    OnLine part (ahead ++ items) := by
  obtain ⟨line, hline, hpart⟩ := hpart
  exact ⟨line, List.mem_append_right ahead hline, hpart⟩

theorem intercalate (hpart : OnLine part items) (separator : Layout) :
    part <:+: separator.intercalate items := by
  obtain ⟨line, hline, hpart⟩ := hpart
  exact hpart.trans (infix_intercalate separator hline)

theorem map {change : Layout → Layout} (hpart : OnLine part items)
    (hchange : ∀ line, line <:+: change line) : OnLine part (items.map change) := by
  obtain ⟨line, hline, hpart⟩ := hpart
  exact ⟨change line, List.mem_map_of_mem hline, hpart.trans (hchange line)⟩

theorem braced (hpart : OnLine part items) (depth : Nat) (head : Layout) :
    part <:+: Layout.braced depth head items := by
  cases items with
  | nil =>
    obtain ⟨line, hline, _⟩ := hpart
    cases hline
  | cons first more =>
    have hlines := hpart.intercalate [.newline (depth + 1)]
    exact List.infix_append_of_infix_left (infix_between hlines _ [.newline depth])

theorem stacked (hpart : OnLine part items) (depth : Nat) (opening closing : String) :
    part <:+: Layout.stacked depth opening closing items := by
  have hlines := hpart.intercalate [.text ",", .newline (depth + 1)]
  exact List.infix_append_of_infix_left (infix_between hlines _ [.newline depth])

end OnLine

theorem infix_braced_of_head (hpart : part <:+: head) (depth : Nat) (items : List Layout) :
    part <:+: braced depth head items := by
  cases items with
  | nil => exact List.infix_append_of_infix_left hpart
  | cons first more =>
    -- The head is the first of six parts.
    have hopen : part <:+: head ++ ofText "\x7b" := List.infix_append_of_infix_left hpart
    have hbreak : part <:+: head ++ ofText "\x7b" ++ [.newline (depth + 1)] :=
      List.infix_append_of_infix_left hopen
    exact List.infix_append_of_infix_left
      (List.infix_append_of_infix_left (List.infix_append_of_infix_left hbreak))

end Layout

namespace Emitter

variable {part code : Layout} {items : List Layout}

theorem infix_inParentheses (hpart : part <:+: code) : part <:+: inParentheses code :=
  Layout.infix_between hpart _ _

theorem infix_inParenthesesIf (needed : Bool) (hpart : part <:+: code) :
    part <:+: inParenthesesIf needed code := by
  cases needed with
  | true => exact infix_inParentheses hpart
  | false => exact hpart

theorem infix_expressionLine (hpart : part <:+: code) : part <:+: expressionLine code :=
  List.infix_append_of_infix_left (infix_inParenthesesIf _ hpart)

theorem infix_applied (key : String) (hpart : Layout.OnLine part items) :
    part <:+: applied key items :=
  Layout.infix_between (hpart.intercalate _) _ _

theorem infix_assigned (target : String) (op : AssignmentOperator) (hpart : part <:+: code) :
    part <:+: assigned target op code := by
  cases op with
  | plain => exact hpart
  | compound op => exact infix_applied _ ⟨code, by simp, hpart⟩

theorem infix_array (depth : Nat) (hpart : Layout.OnLine part items) :
    part <:+: array depth items := by
  cases items with
  | nil =>
    obtain ⟨line, hline, _⟩ := hpart
    cases hline
  | cons first more =>
    simp only [array]
    split
    · exact Layout.infix_between (hpart.intercalate _) _ _
    · exact hpart.stacked depth "[" "]"

theorem infix_object (depth : Nat) (hpart : Layout.OnLine part items) :
    part <:+: object depth items := by
  cases items with
  | nil =>
    obtain ⟨line, hline, _⟩ := hpart
    cases hline
  | cons first more =>
    cases more with
    | nil =>
      obtain ⟨line, hline, hpart⟩ := hpart
      rw [List.mem_singleton.mp hline] at hpart
      exact Layout.infix_between hpart _ _
    | cons second more => exact hpart.stacked depth "\x7b" "\x7d"

end Emitter

end KaLang
