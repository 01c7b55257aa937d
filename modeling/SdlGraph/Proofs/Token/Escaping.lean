import SdlGraph.Proofs.Token.Recovery

/-!
# Escapes, sound and bad

A character may be spelled by itself or by any escape that names it, and a quoted string of such
spellings is read as the text they spell. What follows a backslash and starts no escape is told
once: as a malformed unicode escape if a `u` follows, in one of the ways listed here, and as an
unknown escape otherwise. The diagnostic points at the backslash, and no other one points into the
string.
-/

namespace SdlGraph

namespace Text

theorem scalar?_eq_none_iff {n : Nat} : scalar? n = none ↔ ¬n.isValidChar := by
  simp [scalar?]

theorem hexDigit?_le (c : Char) : (hexDigit? c).getD 0 ≤ 15 := by
  unfold hexDigit?
  split_ifs with hdigit hlower hupper
  · have hle : c.toNat ≤ '9'.toNat := hdigit.2
    exact Nat.sub_le_of_le_add (hle.trans (by decide))
  · have hle : c.toNat ≤ 'f'.toNat := hlower.2
    exact Nat.add_le_add_right (Nat.sub_le_of_le_add (hle.trans (by decide))) 10
  · have hle : c.toNat ≤ 'F'.toNat := hupper.2
    exact Nat.add_le_add_right (Nat.sub_le_of_le_add (hle.trans (by decide))) 10
  · exact Nat.zero_le 15

/-- Four digits write a number of two bytes. -/
theorem hexNumber_le {digits : List Char} (hlength : digits.length = 4) :
    hexNumber digits ≤ 0xFFFF := by
  obtain ⟨a, b, c, d, rfl⟩ := List.length_eq_four.mp hlength
  have ha := hexDigit?_le a
  have hb := hexDigit?_le b
  have hc := hexDigit?_le c
  have hd := hexDigit?_le d
  simp only [hexNumber, List.foldl_cons, List.foldl_nil]
  omega

end Text

open Text

namespace Escape

/-- No escape starts a text that follows a backslash. -/
def Invalid (text : List Char) : Prop :=
  ∀ piece rest value, text = piece ++ rest → ¬Names piece value

/-- A trailing surrogate in four hexadecimal digits stands after a backslash and a `u`. -/
def TrailingFollows (text : List Char) : Prop :=
  ∃ group rest, text = '\\' :: 'u' :: (group ++ rest) ∧ group.length = 4 ∧
    (∀ c ∈ group, isHexDigit c = true) ∧ 0xDC00 ≤ hexNumber group ∧ hexNumber group ≤ 0xDFFF

/-- The ways in which a unicode escape goes wrong after its backslash. -/
inductive Malformed : List Char → Prop where
  /-- Fewer than four digits, and no brace in their place. -/
  | short {digits rest : List Char} (hlength : digits.length < 4)
      (hdigits : ∀ c ∈ digits, isHexDigit c = true) (hrest : StartsOutside isHexDigit rest)
      (hbrace : digits = [] → rest.head? ≠ some '\x7b') : Malformed ('u' :: (digits ++ rest))
  /-- A trailing surrogate by itself. -/
  | trailing {digits rest : List Char} (hlength : digits.length = 4)
      (hdigits : ∀ c ∈ digits, isHexDigit c = true)
      (hvalue : 0xDC00 ≤ hexNumber digits ∧ hexNumber digits ≤ 0xDFFF) :
      Malformed ('u' :: (digits ++ rest))
  /-- A leading surrogate without a trailing one behind it. -/
  | leading {digits rest : List Char} (hlength : digits.length = 4)
      (hdigits : ∀ c ∈ digits, isHexDigit c = true)
      (hvalue : 0xD800 ≤ hexNumber digits ∧ hexNumber digits ≤ 0xDBFF)
      (hrest : ¬TrailingFollows rest) : Malformed ('u' :: (digits ++ rest))
  /-- Braces without digits. -/
  | empty {rest : List Char} : Malformed ('u' :: '\x7b' :: '\x7d' :: rest)
  /-- Braces with more than six digits. -/
  | long {digits rest : List Char} (hlength : 6 < digits.length)
      (hdigits : ∀ c ∈ digits, isHexDigit c = true) :
      Malformed ('u' :: '\x7b' :: (digits ++ '\x7d' :: rest))
  /-- Braces with a number that no character has. -/
  | scalar {digits rest : List Char} (hdigits : ∀ c ∈ digits, isHexDigit c = true)
      (hvalue : ∀ c : Char, c.toNat ≠ hexNumber digits) :
      Malformed ('u' :: '\x7b' :: (digits ++ '\x7d' :: rest))
  /-- A brace that is not closed behind the digits. -/
  | unclosed {digits rest : List Char} (hdigits : ∀ c ∈ digits, isHexDigit c = true)
      (hrest : StartsOutside isHexDigit rest) (hclose : rest.head? ≠ some '\x7d') :
      Malformed ('u' :: '\x7b' :: (digits ++ rest))

variable {text rest : List Char} {length : Nat} {value : Char}

theorem isLeading_iff {n : Nat} : isLeading n = true ↔ 0xD800 ≤ n ∧ n ≤ 0xDBFF := by
  simp [isLeading]

theorem isTrailing_iff {n : Nat} : isTrailing n = true ↔ 0xDC00 ≤ n ∧ n ≤ 0xDFFF := by
  simp [isTrailing]

/-- A leading and a trailing surrogate form the number of a character. -/
theorem scalar?_joinSurrogates {leading trailing : Nat}
    (hleading : 0xD800 ≤ leading ∧ leading ≤ 0xDBFF)
    (htrailing : 0xDC00 ≤ trailing ∧ trailing ≤ 0xDFFF) :
    scalar? (joinSurrogates leading trailing) ≠ none := by
  have hvalid : (joinSurrogates leading trailing).isValidChar := by
    refine .inr ?_
    unfold joinSurrogates
    omega
  exact fun hnone => scalar?_eq_none_iff.mp hnone hvalid

/-- The digits that a text starts with, and what follows them. -/
theorem hexRun (text : List Char) :
    text = text.takeWhile isHexDigit ++ text.dropWhile isHexDigit ∧
      (∀ c ∈ text.takeWhile isHexDigit, isHexDigit c = true) ∧
      StartsOutside isHexDigit (text.dropWhile isHexDigit) :=
  takeWhile_dropWhile_iff.mp ⟨rfl, rfl⟩

/-- A text does not start with four digits where its digits are fewer. -/
theorem fourDigits?_eq_none_iff :
    fourDigits? text = none ↔ (text.takeWhile isHexDigit).length < 4 := by
  obtain ⟨htext, hdigits, -⟩ := hexRun text
  constructor
  · intro hnone
    by_contra hge
    have hlength := List.length_take_of_le (Nat.le_of_not_lt hge)
    have hfour : ∀ c ∈ (text.takeWhile isHexDigit).take 4, isHexDigit c = true :=
      fun c hc => hdigits c (List.mem_of_mem_take hc)
    have hsplit : text = (text.takeWhile isHexDigit).take 4 ++
        ((text.takeWhile isHexDigit).drop 4 ++ text.dropWhile isHexDigit) := by
      rw [← List.append_assoc, List.take_append_drop, ← htext]
    have hsome := fourDigits?_eq_some_iff.mpr ⟨_, hlength, hfour, hsplit, rfl⟩
    rw [hnone] at hsome
    cases hsome
  · intro hlt
    rw [Option.eq_none_iff_forall_ne_some]
    rintro ⟨n, rest⟩ hsome
    obtain ⟨group, hlength, hgroup, rfl, -⟩ := fourDigits?_eq_some_iff.mp hsome
    rw [List.takeWhile_append_of_pos hgroup, List.length_append, hlength] at hlt
    omega

/-- A brace that opens no character number starts a malformed escape. -/
theorem malformed_of_brace (h : braced? ('\x7b' :: text) = none) :
    Malformed ('u' :: '\x7b' :: text) := by
  obtain ⟨htext, hdigits, hrest⟩ := hexRun text
  generalize text.takeWhile isHexDigit = digits at htext hdigits
  generalize text.dropWhile isHexDigit = rest at htext hrest
  subst htext
  by_cases hclose : rest.head? = some '\x7d'
  · obtain ⟨after, rfl⟩ := List.head?_eq_some_iff.mp hclose
    rcases Nat.eq_zero_or_pos digits.length with hzero | hpos
    · obtain rfl := List.eq_nil_of_length_eq_zero hzero
      exact .empty
    rcases Nat.lt_or_ge 6 digits.length with hlong | hle
    · exact .long hlong hdigits
    -- The number of digits is right, so the number must be wrong.
    · refine .scalar hdigits fun c hc => ?_
      have hsome : braced? ('\x7b' :: (digits ++ '\x7d' :: after)) = some (c, after) :=
        braced?_eq_some_iff.mpr ⟨digits, ⟨hpos, hle⟩, hdigits, hc, rfl⟩
      rw [h] at hsome
      cases hsome
  · exact .unclosed hdigits hrest hclose

/-- Groups of digits that name no character form a malformed escape. -/
theorem malformed_of_readFixed (hbraced : braced? text = none)
    (h : readFixed text = .malformed length) : Malformed ('u' :: text) := by
  unfold readFixed at h
  split at h
  next hnone =>
    by_cases hbrace : text.head? = some '\x7b'
    · obtain ⟨inner, rfl⟩ := List.head?_eq_some_iff.mp hbrace
      exact malformed_of_brace hbraced
    · obtain ⟨htext, hdigits, hrest⟩ := hexRun text
      have hshort := Malformed.short (fourDigits?_eq_none_iff.mp hnone) hdigits hrest
      rw [← htext] at hshort
      refine hshort fun hnil hhead => hbrace ?_
      rwa [htext, hnil]
  next n rest hsome =>
    obtain ⟨digits, hlength, hdigits, rfl, rfl⟩ := fourDigits?_eq_some_iff.mp hsome
    split at h
    next hleading =>
      refine .leading hlength hdigits (isLeading_iff.mp hleading) ?_
      rintro ⟨group, after, rfl, hgroup, hgroupDigits, hvalue⟩
      have hfour : fourDigits? (group ++ after) = some (hexNumber group, after) :=
        fourDigits?_eq_some_iff.mpr ⟨group, hgroup, hgroupDigits, rfl, rfl⟩
      obtain ⟨c, hc⟩ := Option.ne_none_iff_exists'.mp
        (scalar?_joinSurrogates (isLeading_iff.mp hleading) hvalue)
      simp [hfour, isTrailing_iff.mpr hvalue, hc] at h
    next hleading =>
      split at h
      next => cases h
      next hscalar =>
        refine .trailing hlength hdigits ?_
        have hle := hexNumber_le hlength
        rw [isLeading_iff] at hleading
        have hinvalid := scalar?_eq_none_iff.mp hscalar
        simp only [Nat.isValidChar] at hinvalid
        omega

/-- An escape that is read as malformed is so in one of the ways listed. -/
theorem malformed_of_read (h : read text = .malformed length) : Malformed text := by
  unfold read at h
  split at h
  next c rest =>
    split at h
    next hc =>
      subst hc
      split at h
      next => cases h
      next hbraced => exact malformed_of_readFixed hbraced h
    next =>
      split at h
      next => cases h
      next => cases h
  next => cases h

theorem readFixed_ne_unknown (text : List Char) : readFixed text ≠ .unknown := by
  intro h
  unfold readFixed at h
  split at h
  next => cases h
  next =>
    split at h
    next =>
      split at h
      next =>
        split at h
        next => cases h
        next =>
          split at h
          next => cases h
          next => cases h
      next => cases h
    next =>
      split at h
      next => cases h
      next => cases h

theorem read_of_not_braced (h : braced? text = none) : read ('u' :: text) = readFixed text := by
  simp [read, h]

theorem braced?_eq_none_of_head? (h : text.head? ≠ some '\x7b') : braced? text = none := by
  rw [Option.eq_none_iff_forall_ne_some]
  rintro ⟨value, after⟩ hsome
  obtain ⟨digits, -, -, -, rfl⟩ := braced?_eq_some_iff.mp hsome
  exact h rfl

/-- Where the digits in a brace end differently, they are not read. -/
theorem braced?_eq_none_of_digits {digits : List Char} (hdigits : ∀ c ∈ digits, isHexDigit c = true)
    (hrest : StartsOutside isHexDigit rest)
    (h : rest.head? = some '\x7d' → 1 ≤ digits.length → digits.length ≤ 6 →
      ∀ c : Char, c.toNat ≠ hexNumber digits) :
    braced? ('\x7b' :: (digits ++ rest)) = none := by
  rw [Option.eq_none_iff_forall_ne_some]
  rintro ⟨value, after⟩ hsome
  obtain ⟨group, hlength, hgroup, hvalue, htext⟩ := braced?_eq_some_iff.mp hsome
  have hbrace : StartsOutside isHexDigit ('\x7d' :: after) := StartsOutside.cons_iff.mpr rfl
  -- Both are all the digits behind the brace.
  obtain ⟨hrun, hbehind⟩ := takeWhile_dropWhile_iff.mpr ⟨(List.cons.inj htext).2, hgroup, hbrace⟩
  obtain ⟨hrun', hbehind'⟩ := takeWhile_dropWhile_iff.mpr ⟨rfl, hdigits, hrest⟩
  obtain rfl := hrun.symm.trans hrun'
  obtain rfl := hbehind.symm.trans hbehind'
  exact h rfl hlength.1 hlength.2 value hvalue

/-- An escape that goes wrong in one of the ways listed is read as malformed. -/
theorem exists_read_of_malformed (h : Malformed text) :
    ∃ length, read text = .malformed length := by
  -- A brace is no digit, so the digits that are read instead are too few.
  have hbrace {inner : List Char} (hnone : braced? ('\x7b' :: inner) = none) :
      read ('u' :: '\x7b' :: inner) = .malformed 2 := by
    have hfew : fourDigits? ('\x7b' :: inner) = none := by
      rw [fourDigits?_eq_none_iff, List.takeWhile_cons_of_neg (by decide)]
      decide
    rw [read_of_not_braced hnone, readFixed, hfew]
  have hclosed (rest : List Char) : StartsOutside isHexDigit ('\x7d' :: rest) :=
    StartsOutside.cons_iff.mpr rfl
  cases h with
  | @short digits rest hlength hdigits hrest hhead =>
    have hnone : braced? (digits ++ rest) = none := by
      cases digits with
      | nil => exact braced?_eq_none_of_head? (hhead rfl)
      | cons c digits => exact braced?_eq_none (List.cons_ne_nil c digits) hdigits
    have hfew : fourDigits? (digits ++ rest) = none := by
      rw [fourDigits?_eq_none_iff, (takeWhile_dropWhile_iff.mpr ⟨rfl, hdigits, hrest⟩).1]
      exact hlength
    refine ⟨2, ?_⟩
    rw [read_of_not_braced hnone, readFixed, hfew]
  | @trailing digits rest hlength hdigits hvalue =>
    have hne : digits ≠ [] := List.ne_nil_of_length_pos (by omega)
    have hfour : fourDigits? (digits ++ rest) = some (hexNumber digits, rest) :=
      fourDigits?_eq_some_iff.mpr ⟨digits, hlength, hdigits, rfl, rfl⟩
    have hleading : ¬isLeading (hexNumber digits) = true := by
      rw [isLeading_iff]
      omega
    have hscalar : scalar? (hexNumber digits) = none := by
      rw [scalar?_eq_none_iff, Nat.isValidChar]
      omega
    exact ⟨6, by simp [read_of_not_braced (braced?_eq_none hne hdigits), readFixed, hfour, hleading,
      hscalar]⟩
  | @leading digits rest hlength hdigits hvalue hrest =>
    have hne : digits ≠ [] := List.ne_nil_of_length_pos (by omega)
    have hfour : fourDigits? (digits ++ rest) = some (hexNumber digits, rest) :=
      fourDigits?_eq_some_iff.mpr ⟨digits, hlength, hdigits, rfl, rfl⟩
    simp only [read_of_not_braced (braced?_eq_none hne hdigits), readFixed, hfour,
      isLeading_iff.mpr hvalue, if_true]
    split
    next second =>
      split
      next => exact ⟨8, rfl⟩
      next n after hsecond =>
        obtain ⟨group, hgroup, hgroupDigits, rfl, rfl⟩ := fourDigits?_eq_some_iff.mp hsecond
        have htrailing : isTrailing (hexNumber group) = false := by
          rw [Bool.eq_false_iff, Ne, isTrailing_iff]
          exact fun hgroupValue => hrest ⟨group, after, rfl, hgroup, hgroupDigits, hgroupValue⟩
        exact ⟨6, by simp [htrailing]⟩
    next => exact ⟨6, rfl⟩
  | @empty rest =>
    have hnone : braced? ('\x7b' :: ([] ++ '\x7d' :: rest)) = none :=
      braced?_eq_none_of_digits (List.forall_mem_nil _) (hclosed rest)
        fun _ hpos _ => absurd hpos (by decide)
    exact ⟨2, hbrace hnone⟩
  | @long digits rest hlength hdigits =>
    exact ⟨2, hbrace (braced?_eq_none_of_digits hdigits (hclosed rest)
      fun _ _ hle => absurd hlength (Nat.not_lt.mpr hle))⟩
  | @scalar digits rest hdigits hvalue =>
    exact ⟨2, hbrace (braced?_eq_none_of_digits hdigits (hclosed rest) fun _ _ _ => hvalue)⟩
  | @unclosed digits rest hdigits hrest hclose =>
    exact ⟨2, hbrace (braced?_eq_none_of_digits hdigits hrest fun hhead => absurd hhead hclose)⟩

/-- Where no escape starts, none is read. -/
theorem Invalid.read_ne_char (h : Invalid text) (value : Char) (rest : List Char) :
    read text ≠ .char value rest := by
  intro hread
  obtain ⟨piece, htext, hname⟩ := read_eq_char_iff.mp hread
  exact h piece rest value htext hname

/-- What follows a backslash is listed as malformed if it starts with a `u` and with no escape. -/
theorem malformed_iff : Malformed text ↔ text.head? = some 'u' ∧ Invalid text := by
  constructor
  · intro h
    refine ⟨by cases h <;> rfl, ?_⟩
    rintro piece rest value rfl hname
    obtain ⟨length, hread⟩ := exists_read_of_malformed h
    rw [read_complete hname] at hread
    cases hread
  · rintro ⟨hhead, hinvalid⟩
    obtain ⟨rest, rfl⟩ := List.head?_eq_some_iff.mp hhead
    cases hbraced : braced? rest with
    | some answer =>
      have hread : read ('u' :: rest) = .char answer.1 answer.2 := by simp [read, hbraced]
      exact absurd hread (hinvalid.read_ne_char _ _)
    | none =>
      have hread := read_of_not_braced hbraced
      cases hfixed : readFixed rest with
      | char value after => exact absurd (hread.trans hfixed) (hinvalid.read_ne_char _ _)
      | unknown => exact absurd hfixed (readFixed_ne_unknown rest)
      | malformed length => exact malformed_of_read (hread.trans hfixed)

/-- What starts no escape and is not listed as malformed is read as unknown. -/
theorem Invalid.read_eq_unknown (h : Invalid text) (hmalformed : ¬Malformed text) :
    read text = .unknown := by
  cases hread : read text with
  | char value rest => exact absurd hread (h.read_ne_char value rest)
  | unknown => rfl
  | malformed length => exact absurd (malformed_of_read hread) hmalformed

end Escape

namespace QuotedString

/-- A spelling of a character within quotes. -/
inductive Spells : List Char → Char → Prop where
  /-- The character itself, unless it is a quote, a backslash or a line end. -/
  | plain {c : Char} (hquote : c ≠ '"') (hbackslash : c ≠ '\\') (hline : c ≠ '\n' ∧ c ≠ '\r') :
      Spells [c] c
  /-- A backslash and an escape that names the character. -/
  | escape {name : List Char} {c : Char} (hname : Escape.Names name c) : Spells ('\\' :: name) c

variable {body value text : List Char} {offset length : Nat}

/-- Spellings one after the other spell a text. -/
theorem body_of_spells {pieces : List (List Char)} (h : List.Forall₂ Spells pieces value) :
    Body pieces.flatten value := by
  induction h with
  | nil => exact .nil
  | cons hfirst _ ih =>
    rw [List.flatten_cons]
    cases hfirst with
    | plain hquote hbackslash hline => exact .plain hquote hbackslash hline ih
    | escape hname => exact .escape hname ih

/-- A quote before what a string may hold opens no block string, unless a quote follows that. -/
theorem Body.not_quotes (h : Body body value) {rest : List Char} (hrest : body = [] →
    ¬['"', '"'] <+: rest) : ¬BlockString.quotes <+: '"' :: (body ++ rest) := by
  rintro hquotes
  have htail : ['"', '"'] <+: body ++ rest := (List.prefix_cons_inj '"').mp hquotes
  cases h with
  | nil => exact hrest rfl htail
  | plain hquote =>
    obtain ⟨more, hmore⟩ := htail
    exact hquote (List.cons.inj hmore).1.symm
  | escape =>
    obtain ⟨more, hmore⟩ := htail
    exact absurd (List.cons.inj hmore).1 (by decide)

theorem read_of_unknown (h : Escape.read text = .unknown) :
    read offset ('\\' :: text) = .error (.invalidEscape offset) := by
  rw [read, if_neg (by decide), if_neg (by decide), if_pos rfl]
  split
  next hchar => rw [h] at hchar; cases hchar
  next => rfl
  next hmalformed => rw [h] at hmalformed; cases hmalformed

theorem read_of_malformed (h : Escape.read text = .malformed length) :
    read offset ('\\' :: text) = .error (.invalidUnicodeEscape offset length) := by
  rw [read, if_neg (by decide), if_neg (by decide), if_pos rfl]
  split
  next hchar => rw [h] at hchar; cases hchar
  next hunknown => rw [h] at hunknown; cases hunknown
  next other hother =>
    obtain rfl := Escape.Reading.malformed.inj (h.symm.trans hother)
    rfl

/-- A string with a bad escape goes wrong at the backslash, in the way that the escape does. -/
theorem exists_read_eq_error (hbody : Body body value) (hinvalid : Escape.Invalid text) :
    ∃ fault, read 1 (body ++ '\\' :: text) = .error fault ∧ fault.offset = 1 + utf8Length body ∧
      (Escape.Malformed text → fault.code = .invalidUnicodeEscape) ∧
      (¬Escape.Malformed text → fault.code = .invalidEscape) := by
  by_cases hmalformed : Escape.Malformed text
  · obtain ⟨length, hread⟩ := Escape.exists_read_of_malformed hmalformed
    refine ⟨.invalidUnicodeEscape (1 + utf8Length body) length, ?_, rfl, fun _ => rfl,
      fun hnot => absurd hmalformed hnot⟩
    rw [read_append hbody, read_of_malformed hread]
    rfl
  · refine ⟨.invalidEscape (1 + utf8Length body), ?_, rfl, fun h => absurd h hmalformed,
      fun _ => rfl⟩
    rw [read_append hbody, read_of_unknown (hinvalid.read_eq_unknown hmalformed)]
    rfl

end QuotedString

/-- A diagnostic tells of the bad escape behind a backslash at a byte. -/
structure Diagnostic.TellsEscape (problem : Diagnostic Span) (backslash : Nat) (text : List Char) :
    Prop where
  /-- It points at one place, and this starts with the backslash. -/
  label : ∃ label, problem.labels = [label] ∧ label.place.start = backslash
  /-- A malformed unicode escape has a code of its own. -/
  malformed : Escape.Malformed text → problem.code.map Code.text = some "E004"
  /-- All other bad escapes share one. -/
  unknown : ¬Escape.Malformed text → problem.code.map Code.text = some "E003"

variable {source : String} {before body value text : List Char}

/-- A text that is a quoted string of spellings is read as one token. -/
theorem Token.scan_of_spells {value : String} {pieces : List (List Char)}
    (h : List.Forall₂ QuotedString.Spells pieces value.toList)
    (hsource : source.toList = '"' :: (pieces.flatten ++ ['"'])) :
    scan source = .ok [⟨.stringValue value, .between 0 source.utf8ByteSize⟩] := by
  have hbody := QuotedString.body_of_spells h
  have hquotes : ¬BlockString.quotes <+: '"' :: (pieces.flatten ++ ['"']) :=
    hbody.not_quotes fun _ => by decide
  have hsplit := Lexeme.Splits.cons (.stringValue hbody hquotes) .nil
  rw [List.append_nil, ← hsource, String.ofList_toList] at hsplit
  refine Lexeme.scan_eq_ok_iff.mpr ⟨_, hsplit, ?_⟩
  rw [Lexeme.locate, Nat.zero_add, ← utf8ByteSize_ofList, String.ofList_toList]
  rfl

/-- A string with a bad escape is told by one diagnostic, which points at the backslash. -/
theorem Token.scan_of_invalid (hreached : Region.Reached source before)
    (hsource : source.toList = before ++ '"' :: (body ++ '\\' :: text))
    (hbody : QuotedString.Body body value) (hinvalid : Escape.Invalid text) :
    ∃ (problems : List (Diagnostic Span)) (problem : Diagnostic Span) (piece : List Char),
      scan source = .error problems ∧
      QuotedString.Skipped (body ++ '\\' :: text) piece ∧
      problem.OnlyIn problems (.between (utf8Length before) (utf8Length (before ++ '"' :: piece))) ∧
      problem.TellsEscape (utf8Length (before ++ '"' :: body)) text := by
  obtain ⟨region, hregion, hstart⟩ := hreached.exists_mem_locate hsource
  obtain ⟨front, c, back, hfront, hplace, hvalue⟩ := Region.exists_of_mem_locate [] hregion
  rw [List.nil_append, hsource] at hfront
  rw [hplace] at hstart
  -- The region at the quote is the one of the string.
  obtain ⟨rfl, hrest⟩ := append_inj_of_utf8Length hfront hstart.symm
  obtain ⟨rfl, rfl⟩ := List.cons.inj hrest
  obtain ⟨fault, hread, hoffset, hmalformed, hunknown⟩ :=
    QuotedString.exists_read_eq_error hbody hinvalid
  have hquotes : ¬BlockString.quotes <+: '"' :: (body ++ '\\' :: text) :=
    hbody.not_quotes fun _ hprefix => by simp at hprefix
  obtain ⟨piece, hpiece, hskipped⟩ := Region.exists_skipped_of_error hquotes hread
  have hfault : region.value.outcome = .error fault := by
    rw [hvalue, Region.ofReading, Reading.ofText_quote, Reading.ofString_of_not_quotes hquotes,
      hread]
  obtain ⟨problems, hscan, honly⟩ :=
    exists_onlyIn hregion (Region.diagnostic?_eq_some_iff.mpr ⟨fault, hfault, rfl⟩)
  rw [hplace, hvalue, hpiece] at honly
  refine ⟨problems, _, piece, hscan, hskipped, honly, ⟨_, rfl, ?_⟩, fun h => ?_, fun h => ?_⟩
  · refine (LexicalFault.start_span _ fault).trans ?_
    rw [hoffset, utf8Length_append before ('"' :: body)]
    rfl
  · exact congrArg (fun code => some (Code.text code)) (hmalformed h)
  · exact congrArg (fun code => some (Code.text code)) (hunknown h)

/-- A quoted string of spellings is read as the text that they spell, whatever escapes these are.
Where a string goes wrong for the first time at an escape, it is told by exactly one diagnostic,
which points at the backslash and tells malformed unicode escapes from all others. -/
theorem Token.scan_escapes (source : String) :
    (∀ (value : String) (pieces : List (List Char)),
      List.Forall₂ QuotedString.Spells pieces value.toList →
      source.toList = '"' :: (pieces.flatten ++ ['"']) →
      scan source = .ok [⟨.stringValue value, .between 0 source.utf8ByteSize⟩]) ∧
    (∀ text, Escape.Malformed text ↔ text.head? = some 'u' ∧ Escape.Invalid text) ∧
    ∀ before body value text, Region.Reached source before →
      source.toList = before ++ '"' :: (body ++ '\\' :: text) →
      QuotedString.Body body value → Escape.Invalid text →
      ∃ (problems : List (Diagnostic Span)) (problem : Diagnostic Span) (piece : List Char),
        scan source = .error problems ∧
        QuotedString.Skipped (body ++ '\\' :: text) piece ∧
        problem.OnlyIn problems
          (.between (utf8Length before) (utf8Length (before ++ '"' :: piece))) ∧
        problem.TellsEscape (utf8Length (before ++ '"' :: body)) text :=
  ⟨fun _ _ => scan_of_spells, fun _ => Escape.malformed_iff,
    fun _ _ _ _ hreached hsource hbody => scan_of_invalid hreached hsource hbody⟩

/-- A surrogate pair in digits of both cases is one character, and a leading surrogate without a
trailing one behind an escape is told where its backslash stands. -/
theorem Token.scan_escapes_surrogates :
    scan "\"\\uD83D\\ude00\"" = .ok [⟨.stringValue "😀", .between 0 14⟩] ∧
    ∃ (problems : List (Diagnostic Span)) (problem : Diagnostic Span) (span : Span),
      scan "\"\\t\\uD800x\"" = .error problems ∧ problem.OnlyIn problems span ∧
      problem.TellsEscape 3 ['u', 'D', '8', '0', '0', 'x', '"'] := by
  constructor
  · have hname : Escape.Names ('u' :: (['D', '8', '3', 'D'] ++ '\\' :: 'u' :: ['d', 'e', '0', '0']))
        '😀' :=
      .pair rfl rfl (List.all_eq_true.mp rfl) (by decide) (by decide) (by decide)
    have htext : "😀".toList = ['😀'] := by decide +kernel
    have hspells : List.Forall₂ QuotedString.Spells
        ['\\' :: 'u' :: (['D', '8', '3', 'D'] ++ '\\' :: 'u' :: ['d', 'e', '0', '0'])]
        "😀".toList := by
      rw [htext]
      exact .cons (.escape hname) .nil
    exact (scan_escapes _).1 "😀" _ hspells (by decide +kernel)
  · have hmalformed : Escape.Malformed ('u' :: (['D', '8', '0', '0'] ++ ['x', '"'])) := by
      refine .leading rfl (List.all_eq_true.mp rfl) (by decide) ?_
      rintro ⟨group, rest, htext, -⟩
      cases htext
    have hname : Escape.Names ['t'] '\t' := .letter (by decide)
    have hbody : QuotedString.Body ('\\' :: (['t'] ++ [])) ['\t'] := .escape hname .nil
    have hinvalid := ((scan_escapes "").2.1 _).mp hmalformed
    obtain ⟨problems, problem, piece, hscan, -, honly, htells⟩ :=
      (scan_escapes "\"\\t\\uD800x\"").2.2 [] _ _ _ ⟨[], _, rfl, rfl⟩ (by decide +kernel) hbody
        hinvalid.2
    exact ⟨problems, problem, _, hscan, honly, htells⟩

end SdlGraph
