import Mathlib.Data.List.DropRight
import Mathlib.Order.Bounds.Basic
import SdlGraph.Proofs.Token.StringLiteral

/-!
# The value of a block string

The rule for the value of a block string speaks of lines and characters: the lines of the raw text
lose the indentation that the later ones share, the blank lines at both ends are dropped, and line
feeds join what is left. The reader cuts lines in two passes and takes indentation away by a number
of bytes, which could fail. It never does: indentation is of one-byte characters, and only a blank
line can be too short. So the value is the one that the rule gives.
-/

namespace SdlGraph.BlockString

open QuotedString (isLineEnd isLineEnd_eq_false_iff)

/-- The pieces of a text between its line breaks: a line feed, a carriage return and a line feed, or
a carriage return by itself. -/
inductive Lines : List Char → List (List Char) → Prop where
  /-- A text without line breaks is a single line. -/
  | last {line : List Char} (hline : ∀ c ∈ line, isLineEnd c = false) : Lines line [line]
  /-- A line feed ends a line. -/
  | feed {line rest : List Char} {more : List (List Char)} (hline : ∀ c ∈ line, isLineEnd c = false)
      (hrest : Lines rest more) : Lines (line ++ '\n' :: rest) (line :: more)
  /-- A carriage return and a line feed end a line together. -/
  | returnFeed {line rest : List Char} {more : List (List Char)}
      (hline : ∀ c ∈ line, isLineEnd c = false) (hrest : Lines rest more) :
      Lines (line ++ '\r' :: '\n' :: rest) (line :: more)
  /-- A carriage return by itself ends a line. -/
  | carriageReturn {line rest : List Char} {more : List (List Char)}
      (hline : ∀ c ∈ line, isLineEnd c = false) (hfeed : rest.head? ≠ some '\n')
      (hrest : Lines rest more) : Lines (line ++ '\r' :: rest) (line :: more)

/-- A line is made of spaces and tabs only. -/
def Blank (line : List Char) : Prop := ∀ c ∈ line, c = ' ' ∨ c = '\t'

/-- The number of spaces and tabs at the start of a line. -/
def leading (line : List Char) : Nat := (line.takeWhile fun c => c = ' ' || c = '\t').length

/-- The least number of spaces and tabs at the start of a line that is not blank. -/
def IsMargin (lines : List (List Char)) (width : Nat) : Prop :=
  IsLeast {count | ∃ line ∈ lines, ¬Blank line ∧ leading line = count} width

/-- The first line is kept, and every other one loses the margin of these. -/
inductive Unindents : List (List Char) → List (List Char) → Prop where
  /-- The other lines have a margin. -/
  | margin {first : List Char} {others : List (List Char)} {width : Nat}
      (h : IsMargin others width) :
      Unindents (first :: others) (first :: others.map (List.drop width))
  /-- The other lines are blank. -/
  | blank {first : List Char} {others : List (List Char)} (h : ∀ line ∈ others, Blank line) :
      Unindents (first :: others) (first :: others)

/-- The blank lines at both ends are left out. -/
inductive Trims : List (List Char) → List (List Char) → Prop where
  /-- Blank lines stand before and after lines of which neither the first nor the last is blank. -/
  | ends {before kept after : List (List Char)} (hbefore : ∀ line ∈ before, Blank line)
      (hafter : ∀ line ∈ after, Blank line) (hfirst : ∀ line ∈ kept.head?, ¬Blank line)
      (hlast : ∀ line ∈ kept.getLast?, ¬Blank line) : Trims (before ++ (kept ++ after)) kept

/-- The value that the rule for block strings gives a raw text. -/
inductive Gives : List Char → List Char → Prop where
  /-- The lines without their margin and without the blank ones at both ends, joined. -/
  | joined {raw : List Char} {split unindented kept : List (List Char)} (hsplit : Lines raw split)
      (hunindents : Unindents split unindented) (htrims : Trims unindented kept) :
      Gives raw (['\n'].intercalate kept)

/-- Whether a character is neither a space nor a tab and breaks no line. -/
def isText (c : Char) : Bool := c ≠ ' ' && c ≠ '\t' && c ≠ '\n' && c ≠ '\r'

variable {c : Char} {text raw rest line : List Char} {split unindented kept : List (List Char)}

theorem cutAtPairs_ne_nil (text : List Char) : cutAtPairs text ≠ [] := by
  fun_induction cutAtPairs text with
  | case1 => exact List.cons_ne_nil _ _
  | case2 => exact List.cons_ne_nil _ _
  | case3 c rest _ ih => simpa using ih

theorem cutAtLineEnds_ne_nil (text : List Char) : cutAtLineEnds text ≠ [] := by
  fun_induction cutAtLineEnds text with
  | case1 => exact List.cons_ne_nil _ _
  | case2 => exact List.cons_ne_nil _ _
  | case3 c rest _ ih => simpa using ih

theorem cutAtPairs_cons (h : c = '\r' → rest.head? ≠ some '\n') :
    cutAtPairs (c :: rest) = (cutAtPairs rest).modifyHead (c :: ·) := by
  rw [cutAtPairs]
  rintro after rfl rfl
  exact h rfl rfl

theorem lines_returnFeed : lines ('\r' :: '\n' :: rest) = [] :: lines rest := rfl

theorem lines_cons_lineEnd (hend : isLineEnd c = true) (h : c = '\r' → rest.head? ≠ some '\n') :
    lines (c :: rest) = [] :: lines rest := by
  have hcases : c = '\n' ∨ c = '\r' := by simpa [isLineEnd] using hend
  obtain ⟨first, more, hcut⟩ := List.exists_cons_of_ne_nil (cutAtPairs_ne_nil rest)
  simp [lines, cutAtPairs_cons h, hcut, cutAtLineEnds, hcases]

theorem lines_cons (hend : isLineEnd c = false) :
    lines (c :: rest) = (lines rest).modifyHead (c :: ·) := by
  obtain ⟨hfeed, hreturn⟩ := isLineEnd_eq_false_iff.mp hend
  obtain ⟨first, more, hcut⟩ := List.exists_cons_of_ne_nil (cutAtPairs_ne_nil rest)
  obtain ⟨line, others, hends⟩ := List.exists_cons_of_ne_nil (cutAtLineEnds_ne_nil first)
  have hpairs : cutAtPairs (c :: rest) = (cutAtPairs rest).modifyHead (c :: ·) :=
    cutAtPairs_cons fun hc => absurd hc hreturn
  simp [lines, hpairs, hcut, cutAtLineEnds, hfeed, hreturn, hends]

/-- Characters that break no line stand before the first line. -/
theorem lines_append (hline : ∀ c ∈ line, isLineEnd c = false) :
    lines (line ++ rest) = (lines rest).modifyHead (line ++ ·) := by
  induction line with
  | nil => cases hlines : lines rest <;> simp [hlines]
  | cons c line ih =>
    obtain ⟨hc, hline⟩ := List.forall_mem_cons.mp hline
    rw [List.cons_append, lines_cons hc, ih hline, List.modifyHead_modifyHead]
    rfl

/-- A line that a line end closes is the first one. -/
theorem lines_append_lineEnd (hline : ∀ c ∈ line, isLineEnd c = false) (hend : isLineEnd c = true)
    (h : c = '\r' → rest.head? ≠ some '\n') : lines (line ++ c :: rest) = line :: lines rest := by
  rw [lines_append hline, lines_cons_lineEnd hend h, List.modifyHead_cons, List.append_nil]

theorem Lines.lines_eq (h : Lines text split) : lines text = split := by
  induction h with
  | @last line hline =>
    have hsingle : lines (line ++ []) = (lines []).modifyHead (line ++ ·) := lines_append hline
    have hnil : lines [] = [[]] := rfl
    rwa [hnil, List.modifyHead_cons, List.append_nil] at hsingle
  | feed hline _ ih => rw [lines_append_lineEnd hline rfl fun hc => absurd hc (by decide), ih]
  | returnFeed hline _ ih =>
    rw [lines_append hline, lines_returnFeed, List.modifyHead_cons, List.append_nil, ih]
  | carriageReturn hline hfeed _ ih => rw [lines_append_lineEnd hline rfl fun _ => hfeed, ih]

/-- Every text has a line. -/
theorem Lines.ne_nil (h : Lines text split) : split ≠ [] := by
  cases h <;> exact List.cons_ne_nil _ _

/-- A character that breaks no line belongs to the first line. -/
theorem Lines.cons {more : List (List Char)} (hend : isLineEnd c = false)
    (h : Lines text (line :: more)) : Lines (c :: text) ((c :: line) :: more) := by
  have hgrown (hline : ∀ d ∈ line, isLineEnd d = false) : ∀ d ∈ c :: line, isLineEnd d = false :=
    List.forall_mem_cons.mpr ⟨hend, hline⟩
  cases h with
  | last hline => exact .last (hgrown hline)
  | feed hline hrest => exact .feed (hgrown hline) hrest
  | returnFeed hline hrest => exact .returnFeed (hgrown hline) hrest
  | carriageReturn hline hfeed hrest => exact .carriageReturn (hgrown hline) hfeed hrest

/-- Cutting in two passes gives the lines of a text. -/
theorem lines_splits (text : List Char) : Lines text (lines text) := by
  have hnil : ∀ c ∈ ([] : List Char), isLineEnd c = false := List.forall_mem_nil _
  fun_induction cutAtPairs text with
  | case1 => exact .last hnil
  | case2 rest ih => exact .returnFeed hnil ih
  | case3 c rest hpair ih =>
    have hfeed : c = '\r' → rest.head? ≠ some '\n' := by
      rintro rfl hhead
      obtain ⟨after, rfl⟩ := List.head?_eq_some_iff.mp hhead
      exact hpair after rfl rfl
    cases hend : isLineEnd c with
    | true =>
      rw [lines_cons_lineEnd hend hfeed]
      have hcases : c = '\n' ∨ c = '\r' := by simpa [isLineEnd] using hend
      rcases hcases with rfl | rfl
      · exact .feed hnil ih
      · exact .carriageReturn hnil (hfeed rfl) ih
    | false =>
      rw [lines_cons hend]
      cases hlines : lines rest with
      | nil => rw [hlines] at ih; cases ih
      | cons line more => exact Lines.cons hend (hlines ▸ ih)

/-- The lines that the reader cuts are those of the text. -/
theorem lines_eq_iff : lines text = split ↔ Lines text split :=
  ⟨fun h => h ▸ lines_splits text, Lines.lines_eq⟩

theorem isBlankLine_iff : isBlankLine line = true ↔ Blank line := by
  simp [isBlankLine, Blank, isIndent]

/-- Spaces and tabs take one byte each. -/
theorem utf8Length_of_indent {piece : List Char} (h : ∀ c ∈ piece, isIndent c = true) :
    utf8Length piece = piece.length := by
  induction piece with
  | nil => rfl
  | cons c piece ih =>
    obtain ⟨hc, hpiece⟩ := List.forall_mem_cons.mp h
    have hsize : c.utf8Size = 1 := by
      have hcases : c = ' ' ∨ c = '\t' := by simpa [isIndent] using hc
      rcases hcases with rfl | rfl <;> rfl
    rw [utf8Length, hsize, ih hpiece, List.length_cons, Nat.add_comm]

/-- A line is as long as its indentation and what follows it. -/
theorem utf8Length_eq_leading_add (line : List Char) :
    utf8Length line = leading line + utf8Length (line.dropWhile isIndent) := by
  have hindent : utf8Length (line.takeWhile isIndent) = leading line :=
    utf8Length_of_indent fun c hc => List.mem_takeWhile_imp hc
  conv_lhs => rw [← List.takeWhile_append_dropWhile (p := isIndent) (l := line)]
  rw [utf8Length_append, hindent]

/-- The bytes that indent a line are as many as the characters. -/
theorem indentation_eq_leading (line : List Char) : indentation line = leading line := by
  rw [indentation, utf8Length_eq_leading_add, Nat.add_sub_cancel]

/-- A line holds more than its indentation unless it is blank. -/
theorem indentation_lt_iff : indentation line < utf8Length line ↔ ¬Blank line := by
  rw [indentation_eq_leading, utf8Length_eq_leading_add, ← isBlankLine_iff, isBlankLine]
  cases hrest : line.dropWhile isIndent with
  | nil => simpa [utf8Length] using List.dropWhile_eq_nil_iff.mp hrest
  | cons c rest =>
    have hpos : 0 < utf8Length (c :: rest) := Nat.add_pos_left c.utf8Size_pos _
    have hnot : ¬∀ d ∈ line, isIndent d = true := by
      rw [← List.dropWhile_eq_nil_iff, hrest]
      exact List.cons_ne_nil _ _
    simpa [hpos] using hnot

/-- The common indentation of some lines is their margin. -/
theorem commonIndentation?_eq_some_iff {width : Nat} :
    commonIndentation? split = some width ↔ IsMargin split width := by
  have hmem (count : Nat) : count ∈ (split.filterMap fun line =>
      if indentation line < utf8Length line then some (indentation line) else none) ↔
      ∃ line ∈ split, ¬Blank line ∧ leading line = count := by
    simp only [List.mem_filterMap, Option.ite_none_right_eq_some, Option.some.injEq,
      indentation_lt_iff]
    simp only [indentation_eq_leading]
  rw [commonIndentation?, List.min?_eq_some_iff, hmem]
  simp only [hmem]
  rfl

theorem commonIndentation?_eq_none_iff :
    commonIndentation? split = none ↔ ∀ line ∈ split, Blank line := by
  simp [commonIndentation?, List.min?_eq_none_iff, List.filterMap_eq_nil_iff, indentation_lt_iff]

/-- Bytes of indentation are taken from a line character by character, and all of a line that is too
short. -/
theorem afterBytes?_getD {count : Nat} (h : ∀ c ∈ line.take count, isIndent c = true) :
    (afterBytes? count line).getD [] = line.drop count := by
  fun_induction afterBytes? count line with
  | case1 line => rfl
  | case2 count => rfl
  | case3 count c rest hsize ih =>
    rw [List.take_succ_cons, List.forall_mem_cons] at h
    have hone : c.utf8Size = 1 := by
      have hcases : c = ' ' ∨ c = '\t' := by simpa [isIndent] using h.1
      rcases hcases with rfl | rfl <;> rfl
    rw [hone, Nat.add_sub_cancel] at ih ⊢
    exact ih h.2
  | case4 count c rest hsize =>
    rw [List.take_succ_cons, List.forall_mem_cons] at h
    have hone : c.utf8Size = 1 := by
      have hcases : c = ' ' ∨ c = '\t' := by simpa [isIndent] using h.1
      rcases hcases with rfl | rfl <;> rfl
    omega

/-- The margin of some lines consists of spaces and tabs in each of them. -/
theorem IsMargin.isIndent {width : Nat} (h : IsMargin split width) (hline : line ∈ split) :
    ∀ c ∈ line.take width, isIndent c = true := by
  by_cases hblank : Blank line
  · exact fun c hc => List.all_eq_true.mp (isBlankLine_iff.mpr hblank) c (List.mem_of_mem_take hc)
  · have hle : width ≤ (line.takeWhile BlockString.isIndent).length :=
      h.2 ⟨line, hline, hblank, rfl⟩
    have htake : line.take width = (line.takeWhile BlockString.isIndent).take width := by
      conv_lhs => rw [← List.takeWhile_append_dropWhile (p := BlockString.isIndent) (l := line)]
      rw [List.take_append_of_le_length hle]
    rw [htake]
    exact fun c hc => List.mem_takeWhile_imp (List.mem_of_mem_take hc)

/-- Lines lose their margin. -/
theorem unindent_of_margin {first : List Char} {others : List (List Char)} {width : Nat}
    (h : IsMargin others width) :
    unindent (first :: others) = first :: others.map (List.drop width) := by
  have hwidth : commonIndentation? others = some width := commonIndentation?_eq_some_iff.mpr h
  have hdrop : others.map (fun line => (afterBytes? width line).getD []) =
      others.map (List.drop width) :=
    List.map_congr_left fun line hline => afterBytes?_getD (h.isIndent hline)
  simp only [unindent, hwidth, hdrop]

theorem unindent_of_blank {first : List Char} {others : List (List Char)}
    (h : ∀ line ∈ others, Blank line) : unindent (first :: others) = first :: others := by
  simp only [unindent, commonIndentation?_eq_none_iff.mpr h]

/-- The reader takes away what the rule takes away. -/
theorem unindent_eq_iff (hne : split ≠ []) :
    unindent split = unindented ↔ Unindents split unindented := by
  constructor
  · rintro rfl
    obtain ⟨first, others, rfl⟩ := List.exists_cons_of_ne_nil hne
    cases hwidth : commonIndentation? others with
    | some width =>
      have hmargin := commonIndentation?_eq_some_iff.mp hwidth
      exact unindent_of_margin hmargin ▸ .margin hmargin
    | none =>
      have hblank := commonIndentation?_eq_none_iff.mp hwidth
      exact (unindent_of_blank hblank).symm ▸ .blank hblank
  · intro h
    cases h with
    | margin hmargin => exact unindent_of_margin hmargin
    | blank hblank => exact unindent_of_blank hblank

/-- Blank lines before one that is not blank are dropped, and no more. -/
theorem dropWhile_isBlankLine {before lines : List (List Char)}
    (hbefore : ∀ line ∈ before, Blank line) (hfirst : ∀ line ∈ lines.head?, ¬Blank line) :
    (before ++ lines).dropWhile isBlankLine = lines := by
  rw [List.dropWhile_append_of_pos fun line hl => isBlankLine_iff.mpr (hbefore line hl)]
  cases lines with
  | nil => rfl
  | cons first lines =>
    exact List.dropWhile_cons_of_neg fun h => hfirst first rfl (isBlankLine_iff.mp h)

theorem trimBlankLines_of_trims (h : Trims unindented kept) : trimBlankLines unindented = kept := by
  cases h with
  | @ends before kept after hbefore hafter hfirst hlast =>
    have hafter' : ∀ line ∈ after.reverse, Blank line :=
      fun line hl => hafter line (List.mem_reverse.mp hl)
    have hlast' : ∀ line ∈ kept.reverse.head?, ¬Blank line := by rwa [List.head?_reverse]
    cases kept with
    | nil =>
      have hall : ∀ line ∈ before ++ after, Blank line :=
        fun line hl => (List.mem_append.mp hl).elim (hbefore line) (hafter line)
      have hnone : (before ++ after).dropWhile isBlankLine = [] :=
        List.dropWhile_eq_nil_iff.mpr fun line hl => isBlankLine_iff.mpr (hall line hl)
      rw [List.nil_append, trimBlankLines, hnone]
      rfl
    | cons first more =>
      have hfirst' : ∀ line ∈ (first :: more ++ after).head?, ¬Blank line := hfirst
      rw [trimBlankLines, dropWhile_isBlankLine hbefore hfirst', List.reverse_append,
        dropWhile_isBlankLine hafter' hlast', List.reverse_reverse]

theorem trims_trimBlankLines (lines : List (List Char)) : Trims lines (trimBlankLines lines) := by
  have hkept : trimBlankLines lines = (lines.dropWhile isBlankLine).rdropWhile isBlankLine := rfl
  have hsplit : lines = lines.takeWhile isBlankLine ++ (trimBlankLines lines ++
      (lines.dropWhile isBlankLine).rtakeWhile isBlankLine) := by
    rw [hkept, List.rdropWhile_append_rtakeWhile, List.takeWhile_append_dropWhile]
  conv => arg 1; rw [hsplit]
  refine .ends ?_ ?_ ?_ ?_
  · exact fun line hl => isBlankLine_iff.mp (List.mem_takeWhile_imp hl)
  · exact fun line hl => isBlankLine_iff.mp (List.mem_rtakeWhile_imp hl)
  · intro line hl hblank
    obtain ⟨more, hmore⟩ := List.head?_eq_some_iff.mp hl
    obtain ⟨after, hafter⟩ := List.rdropWhile_prefix isBlankLine (lines.dropWhile isBlankLine)
    rw [← hkept, hmore] at hafter
    have hhead := List.head?_dropWhile_not isBlankLine lines
    rw [← hafter, List.cons_append, List.head?_cons] at hhead
    exact absurd (isBlankLine_iff.mpr hblank) (by simpa using hhead)
  · intro line hl hblank
    have hne : trimBlankLines lines ≠ [] := by
      intro hnil
      rw [hnil] at hl
      cases hl
    have hlast : ¬isBlankLine ((trimBlankLines lines).getLast hne) = true :=
      List.rdropWhile_last_not isBlankLine (lines.dropWhile isBlankLine) hne
    rw [List.getLast?_eq_some_getLast hne, Option.mem_some] at hl
    exact hlast (isBlankLine_iff.mpr (hl ▸ hblank))

/-- The blank lines that the reader drops are those that the rule leaves out. -/
theorem trimBlankLines_eq_iff : trimBlankLines unindented = kept ↔ Trims unindented kept :=
  ⟨fun h => h ▸ trims_trimBlankLines unindented, trimBlankLines_of_trims⟩

/-- The value of a block string is the one that the rule gives. -/
theorem gives_iff {result : List Char} : Gives raw result ↔ value raw = result := by
  constructor
  · intro h
    cases h with
    | joined hsplit hunindents htrims =>
      rw [value, lines_eq_iff.mpr hsplit, (unindent_eq_iff hsplit.ne_nil).mpr hunindents,
        trimBlankLines_eq_iff.mpr htrims]
  · rintro rfl
    exact .joined (lines_splits raw) ((unindent_eq_iff (lines_splits raw).ne_nil).mp rfl)
      (trims_trimBlankLines _)

/-- No line of a text has a line break in it. -/
theorem Lines.unbroken (h : Lines text split) :
    ∀ line ∈ split, ∀ c ∈ line, isLineEnd c = false := by
  induction h with
  | last hline => exact List.forall_mem_singleton.mpr hline
  | feed hline _ ih => exact List.forall_mem_cons.mpr ⟨hline, ih⟩
  | returnFeed hline _ ih => exact List.forall_mem_cons.mpr ⟨hline, ih⟩
  | carriageReturn hline _ _ ih => exact List.forall_mem_cons.mpr ⟨hline, ih⟩

/-- Lines joined by line feeds are the lines of what they make up. -/
theorem lines_intercalate (hne : kept ≠ []) (h : ∀ line ∈ kept, ∀ c ∈ line, isLineEnd c = false) :
    Lines (['\n'].intercalate kept) kept := by
  induction kept with
  | nil => exact absurd rfl hne
  | cons first more ih =>
    obtain ⟨hfirst, hmore⟩ := List.forall_mem_cons.mp h
    cases more with
    | nil =>
      rw [List.intercalate_singleton]
      exact .last hfirst
    | cons next more =>
      rw [List.intercalate_cons_cons, List.append_assoc]
      exact .feed hfirst (ih (List.cons_ne_nil _ _) hmore)

/-- The text of some lines, without their spaces and tabs. -/
def textOf (lines : List (List Char)) : List Char := lines.flatten.filter isText

/-- Apart from spaces and tabs, a text holds what its lines hold and its line breaks. -/
theorem Lines.filter_isText (h : Lines text split) : text.filter isText = textOf split := by
  induction h with
  | last hline => simp [textOf]
  | feed hline _ ih => simp [textOf, isText, ih]
  | returnFeed hline _ ih => simp [textOf, isText, ih]
  | carriageReturn hline _ _ ih => simp [textOf, isText, ih]

theorem textOf_append (lines others : List (List Char)) :
    textOf (lines ++ others) = textOf lines ++ textOf others := by
  rw [textOf, List.flatten_append, List.filter_append]
  rfl

/-- There is no text in spaces and tabs. -/
theorem filter_isText_of_indent (h : ∀ c ∈ line, isIndent c = true) : line.filter isText = [] := by
  refine List.filter_eq_nil_iff.mpr fun c hc => ?_
  have hcases : c = ' ' ∨ c = '\t' := by simpa [isIndent] using h c hc
  rcases hcases with rfl | rfl <;> decide

theorem textOf_of_blank (h : ∀ line ∈ kept, Blank line) : textOf kept = [] := by
  rw [textOf, List.filter_flatten, List.flatten_eq_nil_iff]
  intro text ht
  obtain ⟨line, hl, rfl⟩ := List.mem_map.mp ht
  exact filter_isText_of_indent (List.all_eq_true.mp (isBlankLine_iff.mpr (h line hl)))

/-- Taking the margin away takes no text. -/
theorem Unindents.textOf_eq (h : Unindents split unindented) :
    textOf unindented = textOf split := by
  cases h with
  | blank => rfl
  | @margin first others width hmargin =>
    have hdrop : ∀ line ∈ others, (List.filter isText ∘ List.drop width) line =
        line.filter isText := by
      intro line hl
      conv_rhs => rw [← List.take_append_drop width line, List.filter_append]
      rw [filter_isText_of_indent (hmargin.isIndent hl), List.nil_append]
      rfl
    rw [textOf, textOf, List.filter_flatten, List.filter_flatten, List.map_cons, List.map_map,
      List.map_cons, List.map_congr_left hdrop]

theorem Unindents.unbroken (h : Unindents split unindented)
    (hsplit : ∀ line ∈ split, ∀ c ∈ line, isLineEnd c = false) :
    ∀ line ∈ unindented, ∀ c ∈ line, isLineEnd c = false := by
  cases h with
  | blank => exact hsplit
  | margin =>
    obtain ⟨hfirst, hothers⟩ := List.forall_mem_cons.mp hsplit
    refine List.forall_mem_cons.mpr ⟨hfirst, fun line hl c hc => ?_⟩
    obtain ⟨written, hw, rfl⟩ := List.mem_map.mp hl
    exact hothers written hw c (List.mem_of_mem_drop hc)

/-- The lines left out at both ends hold no text. -/
theorem Trims.textOf_eq (h : Trims unindented kept) : textOf kept = textOf unindented := by
  cases h with
  | ends hbefore hafter =>
    rw [textOf_append, textOf_append, textOf_of_blank hbefore, textOf_of_blank hafter,
      List.nil_append, List.append_nil]

theorem Trims.subset (h : Trims unindented kept) : kept ⊆ unindented := by
  cases h with
  | ends => exact fun line hl => List.mem_append_right _ (List.mem_append_left _ hl)

theorem mem_intercalate (h : c ∈ ['\n'].intercalate kept) :
    c = '\n' ∨ ∃ line ∈ kept, c ∈ line := by
  induction kept with
  | nil => cases h
  | cons first more ih =>
    cases more with
    | nil =>
      rw [List.intercalate_singleton] at h
      exact .inr ⟨first, List.mem_cons_self, h⟩
    | cons next more =>
      rw [List.intercalate_cons_cons, List.append_assoc, List.mem_append, List.mem_append] at h
      rcases h with h | h | h
      · exact .inr ⟨first, List.mem_cons_self, h⟩
      · exact .inl (List.mem_singleton.mp h)
      · rcases ih h with h | ⟨line, hl, hc⟩
        · exact .inl h
        · exact .inr ⟨line, List.mem_cons_of_mem _ hl, hc⟩

/-- The value of a block string is the one that the rule gives, for every raw text. So it holds all
characters of the raw text other than spaces, tabs and line breaks, in their order; there is no
carriage return in it; and neither its first line nor its last is blank unless it is empty. -/
theorem value_exact (raw : List Char) :
    (∀ result, Gives raw result ↔ value raw = result) ∧
    (value raw).filter isText = raw.filter isText ∧
    '\r' ∉ value raw ∧
    ∀ split, value raw ≠ [] → Lines (value raw) split →
      (∀ line ∈ split.head?, ¬Blank line) ∧ ∀ line ∈ split.getLast?, ¬Blank line := by
  have hgives : Gives raw (value raw) := gives_iff.mpr rfl
  refine ⟨fun result => gives_iff, ?_⟩
  generalize value raw = result at hgives
  cases hgives with
  | @joined _ _ kept hsplit hunindents htrims =>
    have hunbroken : ∀ line ∈ kept, ∀ c ∈ line, isLineEnd c = false := fun line hl =>
      hunindents.unbroken hsplit.unbroken line (htrims.subset hl)
    have htext : textOf kept = raw.filter isText := by
      rw [htrims.textOf_eq, hunindents.textOf_eq, hsplit.filter_isText]
    refine ⟨?_, ?_, ?_⟩
    · by_cases hne : kept = []
      · subst hne
        exact htext
      · rw [(lines_intercalate hne hunbroken).filter_isText, htext]
    · intro hreturn
      rcases mem_intercalate hreturn with h | ⟨line, hl, hc⟩
      · exact absurd h (by decide)
      · exact absurd (hunbroken line hl '\r' hc) (by decide)
    · intro split hne hlines
      have hkept : kept ≠ [] := by
        rintro rfl
        exact hne rfl
      obtain rfl : split = kept := (lines_eq_iff.mpr hlines).symm.trans
        (lines_eq_iff.mpr (lines_intercalate hkept hunbroken))
      cases htrims with
      | ends _ _ hfirst hlast => exact ⟨hfirst, hlast⟩

/-- The spaces of the first line stay, and others lose two characters: an umlaut behind tabs, a
blank line that is too short, and one that is left out at the end. -/
theorem value_exact_umlaut :
    let raw := "  a\r\n\r\t\tü\n \t b\r\n ".toList
    let result := "  a\n\nü\n b".toList
    Gives raw result ∧ result.filter isText = raw.filter isText ∧
      ∀ split, Lines result split →
        (∀ line ∈ split.head?, ¬Blank line) ∧ ∀ line ∈ split.getLast?, ¬Blank line := by
  intro raw result
  have hvalue : value raw = result := by decide +kernel
  have hne : result ≠ [] := by decide
  obtain ⟨hgives, htext, -, hends⟩ := value_exact raw
  rw [hvalue] at htext hends
  exact ⟨(hgives result).mpr hvalue, htext, fun split => hends split hne⟩

end SdlGraph.BlockString
