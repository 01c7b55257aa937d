import SdlGraph.Proofs.Token.BlockText
import SdlGraph.Proofs.Token.Visible

/-!
# Line feeds for other line breaks

A text can be written with line feeds for all its line breaks. Each reader takes the same from such
a text as before and leaves the rest with line feeds: numbers, names, escapes and quoted strings
hold no line breaks, and a block string is cut into lines that do not tell how they were broken.
Only a string that is skipped may end between a carriage return and its line feed. What is read next
is then the line feed, which is no essential.
-/

namespace SdlGraph

open QuotedString (isLineEnd)

/-- A text with a line feed for each carriage return with the line feed behind it, if there is
one. -/
def lineFeeds : List Char → List Char
  | '\r' :: '\n' :: rest => '\n' :: lineFeeds rest
  | '\r' :: rest => '\n' :: lineFeeds rest
  | c :: rest => c :: lineFeeds rest
  | [] => []

variable {c : Char} {text piece rest rest' : List Char}

@[simp]
theorem lineFeeds_nil : lineFeeds [] = [] := rfl

theorem lineFeeds_cons (hc : c ≠ '\r') : lineFeeds (c :: rest) = c :: lineFeeds rest := by
  rw [lineFeeds.eq_3]
  · rintro _ rfl _
    exact hc rfl
  · exact hc

theorem lineFeeds_returnFeed : lineFeeds ('\r' :: '\n' :: rest) = '\n' :: lineFeeds rest := by
  rw [lineFeeds]

theorem lineFeeds_return (h : rest.head? ≠ some '\n') :
    lineFeeds ('\r' :: rest) = '\n' :: lineFeeds rest := by
  rw [lineFeeds.eq_2]
  rintro after rfl
  exact h rfl

/-- A text with line feeds is empty, starts with the same character, or with a line feed where a
carriage return was. -/
theorem lineFeeds_cases (text : List Char) :
    (text = [] ∧ lineFeeds text = []) ∨
    (∃ c rest, c ≠ '\r' ∧ text = c :: rest ∧ lineFeeds text = c :: lineFeeds rest) ∨
    ∃ rest rest', text = '\r' :: rest ∧ lineFeeds text = '\n' :: rest' := by
  cases text with
  | nil => exact .inl ⟨rfl, rfl⟩
  | cons c rest =>
    by_cases hc : c = '\r'
    · subst hc
      refine .inr (.inr ⟨rest, ?_⟩)
      by_cases hfeed : rest.head? = some '\n'
      · obtain ⟨after, rfl⟩ := List.head?_eq_some_iff.mp hfeed
        exact ⟨_, rfl, lineFeeds_returnFeed⟩
      · exact ⟨_, rfl, lineFeeds_return hfeed⟩
    · exact .inr (.inl ⟨c, rest, hc, rfl, lineFeeds_cons hc⟩)

/-- Marks none of which ends a line. -/
theorem forall_isLineEnd_eq_false (h : piece.any isLineEnd = false) :
    ∀ c ∈ piece, isLineEnd c = false :=
  fun c hc => Bool.eq_false_iff.mpr (List.any_eq_false.mp h c hc)

/-- A class without line feeds and carriage returns holds no line ends. -/
theorem isLineEnd_of_class {p : Char → Bool} (hfeed : p '\n' = false) (hreturn : p '\r' = false)
    (hc : p c = true) : isLineEnd c = false := by
  rw [QuotedString.isLineEnd_eq_false_iff]
  constructor
  · rintro rfl
    exact absurd hc (by simp [hfeed])
  · rintro rfl
    exact absurd hc (by simp [hreturn])

/-- A visible character ends no line. -/
theorem isLineEnd_of_visible (h : isVisible c = true) : isLineEnd c = false :=
  isLineEnd_of_class (by decide) (by decide) h

/-- A piece without line breaks stays as it is. -/
theorem lineFeeds_append (h : ∀ c ∈ piece, isLineEnd c = false) :
    lineFeeds (piece ++ rest) = piece ++ lineFeeds rest := by
  induction piece with
  | nil => rfl
  | cons c piece ih =>
    obtain ⟨hc, hpiece⟩ := List.forall_mem_cons.mp h
    have hreturn : c ≠ '\r' := by
      rintro rfl
      cases hc
    rw [List.cons_append, lineFeeds_cons hreturn, ih hpiece, List.cons_append]

/-- A piece without line breaks stands at the start of a text with line feeds exactly if it did
before. -/
theorem lineFeeds_eq_append_iff (h : ∀ c ∈ piece, isLineEnd c = false) :
    lineFeeds text = piece ++ rest' ↔ ∃ rest, text = piece ++ rest ∧ lineFeeds rest = rest' := by
  constructor
  · intro htext
    induction piece generalizing text with
    | nil => exact ⟨text, rfl, htext⟩
    | cons c piece ih =>
      obtain ⟨hc, hpiece⟩ := List.forall_mem_cons.mp h
      rcases lineFeeds_cases text with ⟨rfl, -⟩ | ⟨d, tail, -, rfl, hcons⟩ | ⟨tail, tail', -, hfeed⟩
      · cases htext
      · obtain ⟨rfl, htail⟩ := List.cons.inj (hcons.symm.trans htext)
        obtain ⟨rest, rfl, hrest⟩ := ih hpiece htail
        exact ⟨rest, rfl, hrest⟩
      · obtain ⟨rfl, -⟩ := List.cons.inj (hfeed.symm.trans htext)
        cases hc
  · rintro ⟨rest, rfl, rfl⟩
    exact lineFeeds_append h

/-- A run of a class without line breaks is the same in a text with line feeds. -/
theorem takeWhile_dropWhile_lineFeeds {p : Char → Bool} (hfeed : p '\n' = false)
    (hreturn : p '\r' = false) (text : List Char) :
    (lineFeeds text).takeWhile p = text.takeWhile p ∧
      (lineFeeds text).dropWhile p = lineFeeds (text.dropWhile p) := by
  induction text with
  | nil => exact ⟨rfl, rfl⟩
  | cons c rest ih =>
    rcases lineFeeds_cases (c :: rest) with
      ⟨h, -⟩ | ⟨d, tail, -, h, hcons⟩ | ⟨tail, tail', h, hcons⟩
    · cases h
    · cases h
      rw [hcons]
      cases hp : p c with
      | false => simp [hp, hcons]
      | true => simp [hp, ih]
    · cases h
      rw [hcons]
      simp [hfeed, hreturn, hcons]

/-- A reader that takes pieces without line breaks leaves the rest with line feeds. -/
theorem map_lineFeeds {α : Type} {read : List Char → Option (α × List Char)}
    {Piece : α → List Char → Prop}
    (hread : ∀ text value rest, read text = some (value, rest) ↔
      ∃ piece, text = piece ++ rest ∧ Piece value piece)
    (hpiece : ∀ value piece, Piece value piece → ∀ c ∈ piece, isLineEnd c = false)
    (text : List Char) : read (lineFeeds text) = (read text).map (Prod.map id lineFeeds) := by
  refine Option.ext fun answer => ?_
  obtain ⟨value, rest'⟩ := answer
  rw [hread, Option.map_eq_some_iff]
  constructor
  · rintro ⟨piece, htext, hvalue⟩
    obtain ⟨rest, rfl, rfl⟩ := (lineFeeds_eq_append_iff (hpiece value piece hvalue)).mp htext
    exact ⟨(value, rest), (hread _ _ _).mpr ⟨piece, rfl, hvalue⟩, rfl⟩
  · rintro ⟨⟨value', rest⟩, hsome, heq⟩
    obtain ⟨rfl, rfl⟩ := Prod.mk.inj heq
    obtain ⟨piece, rfl, hvalue⟩ := (hread _ _ _).mp hsome
    exact ⟨piece, lineFeeds_append (hpiece _ piece hvalue), hvalue⟩

namespace Escape

/-- The outcome of reading an escape with the rest of the text changed. -/
def Reading.mapRest (f : List Char → List Char) : Reading → Reading
  | .char value rest => .char value (f rest)
  | .unknown => .unknown
  | .malformed length => .malformed length

theorem fourDigits?_lineFeeds (text : List Char) :
    fourDigits? (lineFeeds text) = (fourDigits? text).map (Prod.map id lineFeeds) := by
  have hread (text : List Char) (n : Nat) (rest : List Char) :
      fourDigits? text = some (n, rest) ↔ ∃ digits, text = digits ++ rest ∧ digits.length = 4 ∧
        (∀ c ∈ digits, Text.isHexDigit c = true) ∧ Text.hexNumber digits = n := by
    rw [fourDigits?_eq_some_iff]
    constructor
    · rintro ⟨digits, hlength, hdigits, rfl, hn⟩
      exact ⟨digits, rfl, hlength, hdigits, hn⟩
    · rintro ⟨digits, rfl, hlength, hdigits, hn⟩
      exact ⟨digits, hlength, hdigits, rfl, hn⟩
  refine map_lineFeeds hread ?_ text
  rintro n digits ⟨-, hdigits, -⟩ c hc
  exact isLineEnd_of_class (by decide) (by decide) (hdigits c hc)

theorem braced?_lineFeeds (text : List Char) :
    braced? (lineFeeds text) = (braced? text).map (Prod.map id lineFeeds) := by
  have hread (text : List Char) (value : Char) (rest : List Char) :
      braced? text = some (value, rest) ↔ ∃ piece, text = piece ++ rest ∧
        ∃ digits, piece = '\x7b' :: (digits ++ ['\x7d']) ∧
          (1 ≤ digits.length ∧ digits.length ≤ 6) ∧ (∀ c ∈ digits, Text.isHexDigit c = true) ∧
          value.toNat = Text.hexNumber digits := by
    rw [braced?_eq_some_iff]
    constructor
    · rintro ⟨digits, hlength, hdigits, hvalue, rfl⟩
      exact ⟨_, by simp, digits, rfl, hlength, hdigits, hvalue⟩
    · rintro ⟨_, rfl, digits, rfl, hlength, hdigits, hvalue⟩
      exact ⟨digits, hlength, hdigits, hvalue, by simp⟩
  refine map_lineFeeds hread ?_ text
  rintro value _ ⟨digits, rfl, -, hdigits, -⟩
  have hdigitsEnd : ∀ c ∈ digits, isLineEnd c = false :=
    fun c hc => isLineEnd_of_class (by decide) (by decide) (hdigits c hc)
  have hinner : ∀ c ∈ digits ++ ['\x7d'], isLineEnd c = false := by
    refine List.forall_mem_append.mpr ⟨hdigitsEnd, ?_⟩
    exact List.forall_mem_singleton.mpr rfl
  exact List.forall_mem_cons.mpr ⟨rfl, hinner⟩

theorem readFixed_lineFeeds (text : List Char) :
    readFixed (lineFeeds text) = (readFixed text).mapRest lineFeeds := by
  have hmarks : ∀ c ∈ ['\\', 'u'], isLineEnd c = false := forall_isLineEnd_eq_false rfl
  rw [readFixed, readFixed, fourDigits?_lineFeeds]
  cases fourDigits? text with
  | none => rfl
  | some first =>
    obtain ⟨leading, rest⟩ := first
    rw [Option.map_some, Prod.map_apply, id_eq]
    simp only
    cases isLeading leading with
    | false =>
      simp only [Bool.false_eq_true, if_false]
      cases Text.scalar? leading with
      | none => rfl
      | some value => rfl
    | true =>
      simp only [if_true]
      by_cases hsecond : ∃ second, rest = '\\' :: 'u' :: second
      · obtain ⟨second, rfl⟩ := hsecond
        have hfeeds : lineFeeds ('\\' :: 'u' :: second) = '\\' :: 'u' :: lineFeeds second := rfl
        simp only [hfeeds]
        rw [fourDigits?_lineFeeds]
        cases fourDigits? second with
        | none => rfl
        | some answer =>
          obtain ⟨trailing, after⟩ := answer
          rw [Option.map_some, Prod.map_apply, id_eq]
          simp only
          generalize Text.scalar? (joinSurrogates leading trailing) = joined
          cases isTrailing trailing with
          | false => rfl
          | true => cases joined <;> rfl
      · split
        next second hrest =>
          obtain ⟨after, rfl, -⟩ := (lineFeeds_eq_append_iff hmarks).mp hrest
          exact absurd ⟨after, rfl⟩ hsecond
        next =>
          split
          next second _ => exact absurd ⟨second, rfl⟩ hsecond
          next => rfl

theorem read_lineFeeds (text : List Char) :
    read (lineFeeds text) = (read text).mapRest lineFeeds := by
  rcases lineFeeds_cases text with ⟨rfl, h⟩ | ⟨c, rest, hc, rfl, h⟩ | ⟨rest, rest', rfl, h⟩
  · rfl
  · rw [h, read, read]
    by_cases hu : c = 'u'
    · rw [if_pos hu, if_pos hu, braced?_lineFeeds, readFixed_lineFeeds]
      cases braced? rest <;> rfl
    · rw [if_neg hu, if_neg hu]
      cases simple? c <;> rfl
  · rw [h]
    rfl

end Escape

namespace Numeral

open Number

theorem afterDigits?_lineFeeds (text : List Char) :
    afterDigits? (lineFeeds text) = (afterDigits? text).map lineFeeds := by
  rcases lineFeeds_cases text with ⟨rfl, h⟩ | ⟨c, rest, hc, rfl, h⟩ | ⟨rest, rest', rfl, h⟩
  · rfl
  · have hdrop : (lineFeeds rest).dropWhile isDigit = lineFeeds (rest.dropWhile isDigit) :=
      (takeWhile_dropWhile_lineFeeds rfl rfl rest).2
    rw [h, afterDigits?, afterDigits?, hdrop]
    cases isDigit c <;> rfl
  · rw [h]
    rfl

theorem afterInteger?_lineFeeds (text : List Char) :
    afterInteger? (lineFeeds text) = (afterInteger? text).map lineFeeds := by
  rcases lineFeeds_cases text with ⟨rfl, h⟩ | ⟨c, rest, hc, rfl, h⟩ | ⟨rest, rest', rfl, h⟩
  · rfl
  · rw [h, afterInteger?, afterInteger?, ← h, afterDigits?_lineFeeds]
    by_cases hzero : c = '0'
    · rw [if_pos hzero, if_pos hzero, Option.map_some]
    · rw [if_neg hzero, if_neg hzero]
  · rw [h]
    rfl

theorem afterSign_lineFeeds (text : List Char) :
    afterSign (lineFeeds text) = lineFeeds (afterSign text) := by
  rcases lineFeeds_cases text with ⟨rfl, h⟩ | ⟨c, rest, hc, rfl, h⟩ | ⟨rest, rest', rfl, h⟩
  · rfl
  · rw [h, afterSign, afterSign, ← h]
    by_cases hsign : c = '-'
    · rw [if_pos hsign, if_pos hsign]
    · rw [if_neg hsign, if_neg hsign]
  · rw [h]
    exact h.symm

theorem afterExponentSign_lineFeeds (text : List Char) :
    afterExponentSign (lineFeeds text) = lineFeeds (afterExponentSign text) := by
  rcases lineFeeds_cases text with ⟨rfl, h⟩ | ⟨c, rest, hc, rfl, h⟩ | ⟨rest, rest', rfl, h⟩
  · rfl
  · rw [h, afterExponentSign, afterExponentSign, ← h]
    by_cases hsign : c = '+' ∨ c = '-'
    · rw [if_pos hsign, if_pos hsign]
    · rw [if_neg hsign, if_neg hsign]
  · rw [h]
    exact h.symm

theorem afterFraction?_lineFeeds (text : List Char) :
    afterFraction? (lineFeeds text) = (afterFraction? text).map lineFeeds := by
  rcases lineFeeds_cases text with ⟨rfl, h⟩ | ⟨c, rest, hc, rfl, h⟩ | ⟨rest, rest', rfl, h⟩
  · rfl
  · rw [h, afterFraction?, afterFraction?, afterDigits?_lineFeeds]
    by_cases hpoint : c = '.'
    · rw [if_pos hpoint, if_pos hpoint]
    · rw [if_neg hpoint, if_neg hpoint, Option.map_none]
  · rw [h]
    rfl

theorem afterExponent?_lineFeeds (text : List Char) :
    afterExponent? (lineFeeds text) = (afterExponent? text).map lineFeeds := by
  rcases lineFeeds_cases text with ⟨rfl, h⟩ | ⟨c, rest, hc, rfl, h⟩ | ⟨rest, rest', rfl, h⟩
  · rfl
  · rw [h, afterExponent?, afterExponent?, afterExponentSign_lineFeeds, afterDigits?_lineFeeds]
    by_cases hletter : c = 'e' ∨ c = 'E'
    · rw [if_pos hletter, if_pos hletter]
    · rw [if_neg hletter, if_neg hletter, Option.map_none]
  · rw [h]
    rfl

theorem read?_lineFeeds (text : List Char) : read? (lineFeeds text) =
    (read? text).map fun number => ⟨number.isFloat, lineFeeds number.rest⟩ := by
  rw [read?, read?, afterSign_lineFeeds, afterInteger?_lineFeeds]
  cases afterInteger? (afterSign text) with
  | none => rfl
  | some middle =>
    have hfraction := afterFraction?_lineFeeds middle
    simp only [Option.map_some, hfraction]
    cases afterFraction? middle with
    | none =>
      simp only [Option.map_none, Option.getD_none, afterExponent?_lineFeeds]
      cases afterExponent? middle <;> rfl
    | some last =>
      simp only [Option.map_some, Option.getD_some, afterExponent?_lineFeeds]
      cases afterExponent? last <;> rfl

end Numeral

namespace QuotedString

theorem read_lineEnd {offset : Nat} (hend : isLineEnd c = true) :
    read offset (c :: rest) = .error (.unterminatedString offset) := by
  have hquote : c ≠ '"' := by
    rintro rfl
    cases hend
  rw [read, if_neg hquote, if_pos hend]

/-- A quoted string, or its fault, is the same in a text with line feeds. -/
theorem read_lineFeeds (offset : Nat) (text : List Char) :
    read offset (lineFeeds text) = (read offset text).map (Prod.map id lineFeeds) := by
  have hreturn {c : Char} (hend : ¬isLineEnd c = true) : c ≠ '\r' := by
    rintro rfl
    exact hend rfl
  fun_induction read offset text with
  | case1 => rw [lineFeeds_nil, read]; rfl
  | case2 offset rest =>
    rw [lineFeeds_cons (by decide), read, if_pos rfl]
    rfl
  | case3 offset c rest hquote hend =>
    rcases lineFeeds_cases (c :: rest) with
      ⟨h, -⟩ | ⟨d, tail, -, h, hcons⟩ | ⟨tail, tail', h, hcons⟩
    · cases h
    · cases h
      rw [hcons, read_lineEnd hend]
      rfl
    · rw [hcons, read_lineEnd rfl]
      rfl
  | case4 offset rest value after he _ _ _ ih =>
    obtain ⟨piece, rfl, hpiece⟩ := Escape.read_eq_char_iff.mp he
    have hfeeds : lineFeeds (piece ++ after) = piece ++ lineFeeds after :=
      lineFeeds_append fun c hc => isLineEnd_of_visible (hpiece.visible c hc)
    have hread : Escape.read (piece ++ lineFeeds after) = .char value (lineFeeds after) :=
      Escape.read_eq_char_iff.mpr ⟨piece, rfl, hpiece⟩
    have hlength : (piece ++ lineFeeds after).length - (lineFeeds after).length =
        (piece ++ after).length - after.length := by
      rw [List.length_append, List.length_append]
      omega
    rw [lineFeeds_cons (by decide), hfeeds, read, if_neg (by decide), if_neg (by decide),
      if_pos rfl]
    split
    next value' after' he' =>
      rw [hread] at he'
      cases he'
      rw [hlength, ih]
      cases read (offset + 1 + ((piece ++ after).length - after.length)) after <;> rfl
    next he' => rw [hread] at he'; cases he'
    next he' => rw [hread] at he'; cases he'
  | case5 offset rest he =>
    have hread : Escape.read (lineFeeds rest) = .unknown := by
      rw [Escape.read_lineFeeds, he]
      rfl
    rw [lineFeeds_cons (by decide), read, if_neg (by decide), if_neg (by decide), if_pos rfl]
    split
    next he' => rw [hread] at he'; cases he'
    next => rfl
    next he' => rw [hread] at he'; cases he'
  | case6 offset rest length he =>
    have hread : Escape.read (lineFeeds rest) = .malformed length := by
      rw [Escape.read_lineFeeds, he]
      rfl
    rw [lineFeeds_cons (by decide), read, if_neg (by decide), if_neg (by decide), if_pos rfl]
    split
    next he' => rw [hread] at he'; cases he'
    next he' => rw [hread] at he'; cases he'
    next he' => rw [hread] at he'; cases he'; rfl
  | case7 offset c rest hquote hend hbackslash ih =>
    rw [lineFeeds_cons (hreturn hend), read, if_neg hquote, if_neg hend, if_neg hbackslash, ih]
    cases read (offset + c.utf8Size) rest <;> rfl

theorem skip_stop (hstop : c = '"' ∨ isLineEnd c = true) : skip (c :: rest) = rest := by
  cases rest with
  | nil => rfl
  | cons d rest => rw [skip, if_pos hstop]

theorem skip_go (hstop : ¬(c = '"' ∨ isLineEnd c = true))
    (hescape : c = '\\' → ∀ d ∈ rest.head?, isLineEnd d = true) : skip (c :: rest) = skip rest := by
  cases rest with
  | nil => rfl
  | cons d rest =>
    have hnot : ¬(c = '\\' ∧ isLineEnd d = false) := by
      rintro ⟨hc, hd⟩
      have hend : isLineEnd d = true := hescape hc d rfl
      rw [hend] at hd
      cases hd
    rw [skip, if_neg hstop, if_neg hnot]

/-- What is skipped of a string is the same in a text with line feeds, or it ends between a carriage
return and its line feed. -/
theorem skip_lineFeeds (text : List Char) : skip (lineFeeds text) = lineFeeds (skip text) ∨
    ∃ rest, skip text = '\n' :: rest ∧ skip (lineFeeds text) = lineFeeds rest := by
  fun_induction skip text with
  | case1 => exact .inl rfl
  | case2 c =>
    rcases lineFeeds_cases [c] with ⟨h, -⟩ | ⟨d, tail, -, h, hcons⟩ | ⟨tail, tail', h, hcons⟩
    · cases h
    · cases h
      rw [hcons]
      exact .inl rfl
    · cases h
      exact .inl rfl
  | case3 c d rest hstop =>
    by_cases hc : c = '\r'
    · subst hc
      by_cases hd : d = '\n'
      · subst hd
        rw [lineFeeds_returnFeed, skip_stop (.inr rfl)]
        exact .inr ⟨rest, rfl, rfl⟩
      · have hhead : (d :: rest).head? ≠ some '\n' := fun h => hd (Option.some.inj h)
        rw [lineFeeds_return hhead, skip_stop (.inr rfl)]
        exact .inl rfl
    · rw [lineFeeds_cons hc, skip_stop hstop]
      exact .inl rfl
  | case4 c d rest hstop hescape ih =>
    obtain ⟨rfl, hd⟩ := hescape
    have hplain : ∀ e ∈ ['\\', d], isLineEnd e = false :=
      List.forall_mem_cons.mpr ⟨rfl, List.forall_mem_singleton.mpr hd⟩
    have hfeeds : lineFeeds ('\\' :: d :: rest) = '\\' :: d :: lineFeeds rest :=
      lineFeeds_append hplain
    rw [hfeeds, skip, if_neg hstop, if_pos ⟨rfl, hd⟩]
    exact ih
  | case5 c d rest hstop hescape ih =>
    have hc : c ≠ '\r' := by
      rintro rfl
      exact hstop (.inr rfl)
    have hhead : c = '\\' → ∀ e ∈ (lineFeeds (d :: rest)).head?, isLineEnd e = true := by
      intro hbackslash e he
      have hd : isLineEnd d = true := by simpa [hbackslash] using hescape
      rcases lineFeeds_cases (d :: rest) with ⟨h, -⟩ | ⟨_, _, -, h, hcons⟩ | ⟨_, _, -, hcons⟩
      · cases h
      · cases h
        rw [hcons] at he
        cases he
        exact hd
      · rw [hcons] at he
        cases he
        rfl
    rw [lineFeeds_cons hc, skip_go hstop hhead]
    exact ih

end QuotedString

namespace BlockString

theorem readRaw?_cons (hquotes : ¬quotes <+: c :: rest) (hescape : ¬ '\\' :: quotes <+: c :: rest) :
    readRaw? (c :: rest) = (readRaw? rest).map fun (raw, after) => (c :: raw, after) := by
  rw [readRaw?.eq_3]
  · rintro after rfl rfl
    exact hquotes (List.prefix_append quotes after)
  · rintro after rfl rfl
    exact hescape (List.prefix_append ('\\' :: quotes) after)

/-- A raw text that starts with a line feed was read where one stands. -/
theorem head?_of_readRaw? {raw : List Char} (h : readRaw? text = some (raw, rest))
    (hraw : raw.head? = some '\n') : text.head? = some '\n' := by
  revert h
  fun_cases readRaw? text with
  | case1 rest => intro h; cases h; cases hraw
  | case2 rest =>
    intro h
    obtain ⟨⟨inner, after⟩, -, heq⟩ := Option.map_eq_some_iff.mp h
    cases heq
    cases hraw
  | case3 c rest =>
    intro h
    obtain ⟨⟨inner, after⟩, -, heq⟩ := Option.map_eq_some_iff.mp h
    cases heq
    exact hraw
  | case4 => intro h; cases h

/-- A block string ends at the same place in a text with line feeds. -/
theorem readRaw?_lineFeeds (text : List Char) :
    readRaw? (lineFeeds text) = (readRaw? text).map (Prod.map lineFeeds lineFeeds) := by
  have hkeep {piece text : List Char} (hpiece : ∀ c ∈ piece, isLineEnd c = false)
      (h : ¬piece <+: text) : ¬piece <+: lineFeeds text := by
    rintro ⟨rest', hrest⟩
    obtain ⟨rest, rfl, -⟩ := (lineFeeds_eq_append_iff hpiece).mp hrest.symm
    exact h (List.prefix_append piece rest)
  fun_induction readRaw? text with
  | case1 rest => rfl
  | case2 rest ih =>
    have hfeeds : lineFeeds ('\\' :: '"' :: '"' :: '"' :: rest) =
        '\\' :: '"' :: '"' :: '"' :: lineFeeds rest := rfl
    rw [hfeeds, readRaw?, ih]
    cases readRaw? rest <;> rfl
  | case3 c rest hquotes hescape ih =>
    have hquotes' : ¬quotes <+: c :: rest := by
      rintro ⟨after, hafter⟩
      cases hafter
      exact hquotes after rfl rfl
    have hescape' : ¬ '\\' :: quotes <+: c :: rest := by
      rintro ⟨after, hafter⟩
      cases hafter
      exact hescape after rfl rfl
    by_cases hc : c = '\r'
    · subst hc
      by_cases hhead : rest.head? = some '\n'
      · obtain ⟨after, rfl⟩ := List.head?_eq_some_iff.mp hhead
        have hfeed : readRaw? ('\n' :: after) =
            (readRaw? after).map fun (raw, last) => ('\n' :: raw, last) :=
          readRaw?_cons (by simp [quotes]) (by simp)
        rw [lineFeeds_returnFeed, ← lineFeeds_cons (by decide), ih, hfeed]
        cases readRaw? after <;> rfl
      · rw [lineFeeds_return hhead, readRaw?_cons (by simp [quotes]) (by simp), ih]
        cases hread : readRaw? rest with
        | none => rfl
        | some answer =>
          obtain ⟨raw, last⟩ := answer
          have hraw : raw.head? ≠ some '\n' := fun h => hhead (head?_of_readRaw? hread h)
          simp [lineFeeds_return hraw]
    · have hfeeds : lineFeeds (c :: rest) = c :: lineFeeds rest := lineFeeds_cons hc
      have hplain := hkeep (forall_isLineEnd_eq_false rfl) hquotes'
      have hplain' := hkeep (forall_isLineEnd_eq_false rfl) hescape'
      rw [hfeeds] at hplain hplain' ⊢
      rw [readRaw?_cons hplain hplain', ih]
      cases readRaw? rest with
      | none => rfl
      | some answer => simp [lineFeeds_cons hc]
  | case4 => rfl

/-- The lines of a text do not tell how they were broken. -/
theorem lines_lineFeeds (text : List Char) : lines (lineFeeds text) = lines text := by
  fun_induction lineFeeds text with
  | case1 rest ih =>
    rw [lines_cons_lineEnd rfl fun hc => absurd hc (by decide), ih, lines_returnFeed]
  | case2 rest hnot ih =>
    have hhead : rest.head? ≠ some '\n' := by
      intro hhead
      obtain ⟨after, rfl⟩ := List.head?_eq_some_iff.mp hhead
      exact hnot after rfl
    rw [lines_cons_lineEnd rfl fun hc => absurd hc (by decide), ih,
      lines_cons_lineEnd rfl fun _ => hhead]
  | case3 c rest _ hreturn ih =>
    cases hend : isLineEnd c with
    | true =>
      rw [lines_cons_lineEnd hend fun hc => absurd hc hreturn, ih,
        lines_cons_lineEnd hend fun hc => absurd hc hreturn]
    | false => rw [lines_cons hend, ih, lines_cons hend]
  | case4 => rfl

end BlockString

namespace Reading

open Numeral (continues)

/-- The reading of a number with a given written form. -/
theorem ofNumber_of_read? {written after : List Char} {isFloat : Bool}
    (h : Number.read? (written ++ after) = some ⟨isFloat, after⟩) :
    (StartsOutside continues after →
      ofNumber (written ++ after) = ⟨.ok (ofNumber.numberToken isFloat written), after⟩) ∧
    ∀ d last, after = d :: last → continues d = true →
      ofNumber (written ++ after) = ⟨.error (.invalidNumber written.length), last⟩ := by
  have hwritten : (written ++ after).take ((written ++ after).length - after.length) = written := by
    rw [List.length_append, Nat.add_sub_cancel, List.take_left]
  have hif (d : Char) : (isNameChar d || decide (d = '.')) = continues d := rfl
  simp only [ofNumber, h, hwritten]
  constructor
  · intro hafter
    cases after with
    | nil => rfl
    | cons d last =>
      simp only [hif, StartsOutside.cons_iff.mp hafter, Bool.false_eq_true, if_false]
  · rintro d last rfl hd
    simp only [hif, hd, if_true]

/-- A number, or the fault in its place, is the same in a text with line feeds. -/
theorem ofNumber_lineFeeds (hc : c ≠ '\r') :
    ofNumber (lineFeeds (c :: rest)) =
      ⟨(ofNumber (c :: rest)).outcome, lineFeeds (ofNumber (c :: rest)).rest⟩ := by
  have hfeeds : lineFeeds (c :: rest) = c :: lineFeeds rest := lineFeeds_cons hc
  have hread := Numeral.read?_lineFeeds (c :: rest)
  cases hnumber : Number.read? (c :: rest) with
  | none =>
    rw [hnumber, hfeeds] at hread
    rw [hfeeds]
    simp [ofNumber, hnumber, hread]
  | some number =>
    obtain ⟨isFloat, after⟩ := number
    obtain ⟨written, hwritten, htext⟩ := Numeral.read?_sound hnumber
    have happend : lineFeeds (written ++ after) = written ++ lineFeeds after :=
      lineFeeds_append fun c hc =>
        isLineEnd_of_visible (Numeral.visible_numbers isFloat written hwritten c hc)
    rw [hnumber, htext, happend] at hread
    rw [htext] at hnumber
    rw [htext, happend]
    obtain ⟨hok, hfault⟩ := ofNumber_of_read? hnumber
    obtain ⟨hok', hfault'⟩ := ofNumber_of_read? hread
    rcases lineFeeds_cases after with ⟨rfl, h⟩ | ⟨d, last, hd, rfl, h⟩ | ⟨last, last', rfl, h⟩
    · have houtside : StartsOutside continues [] :=
        fun d hd => absurd hd (Option.not_mem_none d)
      rw [hok houtside]
      exact hok' houtside
    · cases hcontinues : continues d with
      | true => rw [hfault d last rfl hcontinues, hfault' d _ h hcontinues]
      | false =>
        have houtside : StartsOutside continues (lineFeeds (d :: last)) := by
          rw [h]
          exact StartsOutside.cons_iff.mpr hcontinues
        rw [hok (StartsOutside.cons_iff.mpr hcontinues), hok' houtside]
    · have houtside : StartsOutside continues (lineFeeds ('\r' :: last)) := by
        rw [h]
        exact StartsOutside.cons_iff.mpr (by decide)
      rw [hok (StartsOutside.cons_iff.mpr (by decide)), hok' houtside]

end Reading

end SdlGraph
