import Calculator.Text.Lines
import Mathlib.Data.List.Basic

/-!
# What the lines of a text are

* `Text.Lines`: a text and its lines
* `Text.lines_eq_iff`: the lines that a text is cut into
* `Text.lines_flatMap`: lines that are put together
-/

namespace Calculator.Text

/-- A text and its lines: a line ends with a line feed or with a carriage return and a line feed,
only the last one may lack an end, and no line is empty without one. -/
inductive Lines : List Char → List (List Char) → Prop
  | nil : Lines [] []
  | unended {line : List Char} (hne : line ≠ []) (hfeed : '\n' ∉ line) : Lines line [line]
  | feed {line rest : List Char} {more : List (List Char)} (hfeed : '\n' ∉ line)
    (hreturn : line.getLast? ≠ some '\r') (h : Lines rest more) :
    Lines (line ++ '\n' :: rest) (line :: more)
  | returnFeed {line rest : List Char} {more : List (List Char)} (hfeed : '\n' ∉ line)
    (h : Lines rest more) : Lines (line ++ '\r' :: '\n' :: rest) (line :: more)

theorem lines_cons {c : Char} {cs : List Char} (hc : c ≠ '\n')
    (hcs : c = '\r' → cs.head? ≠ some '\n') :
    lines (c :: cs) = (c :: (lines cs).headD []) :: (lines cs).tail := by
  rw [lines]
  · cases lines cs <;> rfl
  · exact hc
  · rintro rest rfl rfl
    exact hcs rfl rfl

/-- The characters in front of a text belong to its first line, unless a line feed is among them or
a carriage return comes to stand before one. -/
theorem lines_append {line tail : List Char} (hne : line ≠ []) (hfeed : '\n' ∉ line)
    (hreturn : line.getLast? = some '\r' → tail.head? ≠ some '\n') :
    lines (line ++ tail) = (line ++ (lines tail).headD []) :: (lines tail).tail := by
  induction line with
  | nil => exact absurd rfl hne
  | cons c cs ih =>
    obtain ⟨hc, hcs⟩ := List.ne_and_not_mem_of_not_mem_cons hfeed
    cases cs with
    | nil => exact lines_cons (Ne.symm hc) fun h => hreturn (congrArg some h)
    | cons d ds =>
      have hhead : (d :: ds ++ tail).head? ≠ some '\n' := fun h =>
        hcs (Option.some.inj h ▸ List.mem_cons_self)
      rw [List.cons_append, lines_cons (Ne.symm hc) fun _ => hhead,
        ih (List.cons_ne_nil d ds) hcs hreturn]
      rfl

theorem lines_unended {line : List Char} (hne : line ≠ []) (hfeed : '\n' ∉ line) :
    lines line = [line] := by
  have happend := @lines_append line [] hne hfeed fun _ => by simp
  rwa [List.append_nil, lines, List.headD_nil, List.append_nil] at happend

theorem lines_feed {line : List Char} (hfeed : '\n' ∉ line) (hreturn : line.getLast? ≠ some '\r')
    (rest : List Char) : lines (line ++ '\n' :: rest) = line :: lines rest := by
  rcases eq_or_ne line [] with rfl | hne
  · rw [List.nil_append, lines]
  · rw [lines_append hne hfeed fun h => absurd h hreturn, lines]
    simp

theorem lines_returnFeed {line : List Char} (hfeed : '\n' ∉ line) (rest : List Char) :
    lines (line ++ '\r' :: '\n' :: rest) = line :: lines rest := by
  rcases eq_or_ne line [] with rfl | hne
  · rw [List.nil_append, lines]
  · rw [lines_append hne hfeed fun _ => by simp, lines]
    simp

theorem Lines.lines_eq {text : List Char} {ls : List (List Char)} (h : Lines text ls) :
    lines text = ls := by
  induction h with
  | nil => rfl
  | unended hne hfeed => exact lines_unended hne hfeed
  | feed hfeed hreturn _ ih => rw [lines_feed hfeed hreturn, ih]
  | returnFeed hfeed _ ih => rw [lines_returnFeed hfeed, ih]

theorem exists_lines (text : List Char) : ∃ ls, Lines text ls := by
  by_cases hmem : '\n' ∈ text
  · obtain ⟨line, rest, rfl, hfeed⟩ := List.eq_append_cons_of_mem hmem
    obtain ⟨more, hmore⟩ := exists_lines rest
    by_cases hreturn : line.getLast? = some '\r'
    · obtain ⟨front, rfl⟩ := List.getLast?_eq_some_iff.mp hreturn
      rw [List.append_assoc]
      exact ⟨front :: more, .returnFeed (fun h => hfeed (List.mem_append_left _ h)) hmore⟩
    · exact ⟨line :: more, .feed hfeed hreturn hmore⟩
  · rcases eq_or_ne text [] with rfl | hne
    · exact ⟨[], .nil⟩
    · exact ⟨[text], .unended hne hmem⟩
termination_by text.length
decreasing_by
  subst_vars
  simp
  omega

/-- A text is cut into its lines. -/
theorem lines_eq_iff {text : List Char} {ls : List (List Char)} :
    lines text = ls ↔ Lines text ls := by
  refine ⟨?_, Lines.lines_eq⟩
  rintro rfl
  obtain ⟨ls, hls⟩ := exists_lines text
  rwa [hls.lines_eq]

/-- Lines that are put together, each with a line feed behind it, are the lines of the text. -/
theorem lines_flatMap {ls : List (List Char)}
    (h : ∀ line ∈ ls, '\n' ∉ line ∧ line.getLast? ≠ some '\r') :
    lines (ls.flatMap (· ++ ['\n'])) = ls := by
  induction ls with
  | nil => rfl
  | cons line ls ih =>
    obtain ⟨⟨hfeed, hreturn⟩, hls⟩ := List.forall_mem_cons.mp h
    rw [List.flatMap_cons, List.append_assoc, List.singleton_append, lines_feed hfeed hreturn,
      ih hls]

end Calculator.Text
