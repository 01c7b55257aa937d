import SdlGraph.Proofs.Token.LineFeeds
import SdlGraph.Proofs.Token.Splitting

/-!
# What lexical faults point at

Readers count bytes while they go through characters. Where one ends in a fault, the count is the
length of the piece gone through, so the fault points at a piece of the text that starts and ends
between characters. Only for a character that starts no token the first byte alone is pointed at.
-/

namespace SdlGraph

/-- A fault points at a piece of a text, and the piece is not empty. -/
def LexicalFault.Marks (fault : LexicalFault) (text : List Char) : Prop :=
  ∃ front piece back, text = front ++ (piece ++ back) ∧ piece ≠ [] ∧ ∀ start,
    fault.span start = .between (start + utf8Length front) (start + utf8Length (front ++ piece))

namespace Escape

variable {text : List Char} {length : Nat}

/-- A group of digits takes four bytes. -/
theorem utf8Length_digits {digits : List Char} (hlength : digits.length = 4)
    (h : ∀ c ∈ digits, Text.isHexDigit c = true) : utf8Length digits = 4 := by
  rw [utf8Length_of_visible fun c hc => isVisible_of_isHexDigit (h c hc), hlength]

/-- Where a group of digits goes wrong, so many bytes have been read after the backslash and the
`u`. -/
theorem readFixed_eq_malformed (h : readFixed text = .malformed length) :
    ∃ piece back, text = piece ++ back ∧ length = 2 + utf8Length piece := by
  unfold readFixed at h
  split at h
  next =>
    cases h
    exact ⟨[], text, rfl, rfl⟩
  next leading after hleading =>
    obtain ⟨digits, hfour, hdigits, rfl, rfl⟩ := fourDigits?_eq_some_iff.mp hleading
    have hbytes := utf8Length_digits hfour hdigits
    -- All cases but one stop behind the first group.
    have hgroup : ∃ piece back, digits ++ after = piece ++ back ∧ 6 = 2 + utf8Length piece :=
      ⟨digits, after, rfl, by rw [hbytes]⟩
    split at h
    next =>
      split at h
      next second =>
        split at h
        next =>
          cases h
          refine ⟨digits ++ ['\\', 'u'], second, by simp, ?_⟩
          rw [utf8Length_append, hbytes]
          rfl
        next =>
          split at h
          next => cases h
          next =>
            cases h
            exact hgroup
      next =>
        cases h
        exact hgroup
    next =>
      split at h
      next => cases h
      next =>
        cases h
        exact hgroup

/-- A malformed escape has been read for this number of bytes, its backslash included. -/
theorem read_eq_malformed (h : read text = .malformed length) :
    ∃ piece back, '\\' :: text = piece ++ back ∧ piece ≠ [] ∧ length = utf8Length piece := by
  unfold read at h
  split at h
  next c rest =>
    split at h
    next hc =>
      subst hc
      split at h
      next => cases h
      next =>
        obtain ⟨piece, back, rfl, hlength⟩ := readFixed_eq_malformed h
        refine ⟨'\\' :: 'u' :: piece, back, rfl, List.cons_ne_nil _ _, ?_⟩
        have hbackslash : ('\\' : Char).utf8Size = 1 := rfl
        have hletter : ('u' : Char).utf8Size = 1 := rfl
        simp only [hlength, utf8Length, hbackslash, hletter]
        omega
    next =>
      split at h
      next => cases h
      next => cases h
  next => cases h

end Escape

namespace QuotedString

/-- What a reading would give is not looked at when it fails. -/
theorem eq_error_of_map {α β : Type} {change : α → β} {fault : LexicalFault}
    {result : Except LexicalFault α} (h : result.map change = .error fault) :
    result = .error fault := by
  cases result with
  | ok answer => cases h
  | error fault' => exact congrArg Except.error (Except.error.inj h)

/-- The fault of a string counts from the start of what has been taken before. -/
theorem marks_of_read {taken text : List Char} {fault : LexicalFault} (htaken : taken ≠ [])
    (h : read (utf8Length taken) text = .error fault) : fault.Marks (taken ++ text) := by
  -- By induction on the reading; what has been taken grows by what a step reads.
  generalize hoffset : utf8Length taken = offset at h
  fun_induction read offset text generalizing taken with
  | case1 offset =>
    cases h
    refine ⟨[], taken, [], rfl, htaken, fun start => ?_⟩
    rw [List.nil_append, hoffset]
    rfl
  | case2 => cases h
  | case3 offset c rest =>
    cases h
    refine ⟨[], taken, c :: rest, rfl, htaken, fun start => ?_⟩
    rw [List.nil_append, hoffset]
    rfl
  | case4 offset rest value after he _ _ _ ih =>
    have hread := eq_error_of_map h
    obtain ⟨piece, rfl, hpiece⟩ := Escape.read_eq_char_iff.mp he
    have hlength : utf8Length piece = (piece ++ after).length - after.length := by
      rw [utf8Length_of_visible hpiece.visible, List.length_append, Nat.add_sub_cancel]
    have hgrown : utf8Length (taken ++ '\\' :: piece) =
        offset + 1 + ((piece ++ after).length - after.length) := by
      rw [utf8Length_append, hoffset, ← hlength, Nat.add_assoc]
      rfl
    have hmarks := ih (List.append_ne_nil_of_left_ne_nil htaken _) hgrown hread
    simpa using hmarks
  | case5 offset rest =>
    cases h
    refine ⟨taken, ['\\'], rest, rfl, List.cons_ne_nil _ _, fun start => ?_⟩
    rw [utf8Length_append, hoffset]
    rfl
  | case6 offset rest length he =>
    cases h
    obtain ⟨piece, back, htext, hne, rfl⟩ := Escape.read_eq_malformed he
    refine ⟨taken, piece, back, by rw [htext], hne, fun start => ?_⟩
    rw [utf8Length_append, hoffset, ← Nat.add_assoc]
    rfl
  | case7 offset c rest _ _ _ ih =>
    have hread := eq_error_of_map h
    have hgrown : utf8Length (taken ++ [c]) = offset + c.utf8Size := by
      rw [utf8Length_append, hoffset]
      rfl
    have hmarks := ih (List.append_ne_nil_of_left_ne_nil htaken _) hgrown hread
    simpa using hmarks

end QuotedString

namespace Reading

variable {c : Char} {text : List Char} {fault : LexicalFault}

/-- A string that breaks off is pointed at up to there, a bad escape by itself. -/
theorem marks_of_ofString (h : (ofString text).outcome = .error fault) :
    fault.Marks ('"' :: text) := by
  unfold ofString at h
  split at h
  next raw =>
    split at h
    next => cases h
    next =>
      cases h
      refine ⟨[], '"' :: '"' :: '"' :: raw, [], by simp, List.cons_ne_nil _ _, fun start => ?_⟩
      have hquote : ('"' : Char).utf8Size = 1 := rfl
      have hlength : utf8Length ('"' :: '"' :: '"' :: raw) = 3 + utf8Length raw := by
        simp only [utf8Length, hquote]
        omega
      rw [List.nil_append, hlength]
      rfl
  next =>
    split at h
    next => cases h
    next hread =>
      cases h
      have hmarks : LexicalFault.Marks _ (['"'] ++ text) :=
        QuotedString.marks_of_read (List.cons_ne_nil _ _) hread
      exact hmarks

/-- A number that runs into something is pointed at as a whole. -/
theorem marks_of_ofNumber (h : (ofNumber text).outcome = .error fault) :
    fault = .unexpectedCharacter ∨ fault.Marks text := by
  cases hread : Number.read? text with
  | none =>
    simp only [ofNumber, hread] at h
    exact .inl (Except.error.inj h).symm
  | some number =>
    obtain ⟨isFloat, after⟩ := number
    obtain ⟨written, hwritten, rfl⟩ := Numeral.read?_sound hread
    obtain ⟨hok, hfault⟩ := ofNumber_of_read? hread
    by_cases houtside : StartsOutside Numeral.continues after
    · rw [hok houtside] at h
      cases h
    · obtain ⟨d, last, rfl, hd⟩ : ∃ d last, after = d :: last ∧ Numeral.continues d = true := by
        simpa [StartsOutside, List.head?_eq_some_iff] using houtside
      rw [hfault d last rfl hd] at h
      cases h
      have hlength := utf8Length_of_visible (Numeral.visible_numbers isFloat written hwritten)
      obtain ⟨first, more, rfl, -⟩ := exists_cons_of_mem_numbers hwritten
      refine .inr ⟨[], first :: more, d :: last, rfl, List.cons_ne_nil _ _, fun start => ?_⟩
      rw [List.nil_append, hlength]
      rfl

/-- What a reading finds wrong is a character that starts no token, or a piece of the text. -/
theorem marks_of_ofText (h : (ofText c text).outcome = .error fault) :
    fault = .unexpectedCharacter ∨ fault.Marks (c :: text) := by
  unfold ofText at h
  split at h
  next => cases h
  split at h
  next hc =>
    subst hc
    exact .inr (marks_of_ofString h)
  split at h
  next => exact marks_of_ofNumber h
  split at h
  next => cases h
  split at h
  next => cases h
  split at h
  next => cases h
  next => cases h
  next => cases h
  next => cases h
  next =>
    split at h
    next => cases h
    next => exact .inl (Except.error.inj h).symm

end Reading

/-- A region is what the reading at its start takes. -/
theorem Region.exists_of_mem_locate (before : List Char) {text : List Char}
    {region : Located Span Region}
    (h : region ∈ locate (utf8Length before) (cut text)) :
    ∃ front c back, before ++ text = front ++ c :: back ∧
      region.place = .between (utf8Length front) (utf8Length (front ++ region.value.text)) ∧
      region.value = ofReading c back (Reading.ofText c back) := by
  -- By induction on the regions, with all that stands before them carried along.
  fun_induction cut text generalizing before with
  | case1 => cases h
  | case2 c text ih =>
    obtain ⟨piece, hregion, htext⟩ := ofReading_text_append c text
    rw [locate, List.mem_cons] at h
    rcases h with rfl | h
    · exact ⟨before, c, text, rfl, by rw [utf8Length_append], rfl⟩
    · rw [hregion, ← utf8Length_append] at h
      obtain ⟨front, d, back, hall, hplace, hread⟩ := ih _ h
      refine ⟨front, d, back, ?_, hplace, hread⟩
      rw [← hall, List.append_assoc, List.cons_append, ← htext]

end SdlGraph
