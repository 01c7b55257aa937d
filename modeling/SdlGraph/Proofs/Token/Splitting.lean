import SdlGraph.Document.Refusal
import SdlGraph.Proofs.Token.Numeral
import SdlGraph.Proofs.Token.StringLiteral
import SdlGraph.Proofs.Token.Tiling

/-!
# Cutting a text into tokens is splitting it into lexemes

One reading gives a token exactly if a lexeme of this token starts the text, and it leaves what
follows the lexeme. Step by step, a text whose regions all hold tokens is the sequence of the
lexemes in them, and any sequence of lexemes is what the text is cut into. So a text has at most one
such sequence, and the tokens cover the text.
-/

namespace SdlGraph

namespace Reading

variable {c : Char} {text rest : List Char} {token : Token}

theorem ofText_of_number (h : (c = '-' || Number.isDigit c) = true) :
    ofText c text = ofNumber (c :: text) := by
  have hcomment : c ≠ '#' := by rintro rfl; exact absurd h (by decide)
  have hquote : c ≠ '"' := by rintro rfl; exact absurd h (by decide)
  unfold ofText
  rw [if_neg hcomment, if_neg hquote, if_pos h]

/-- Names do not start with a digit. -/
theorem isDigit_of_isNameStart (h : isNameStart c = true) : Number.isDigit c = false := by
  simp only [isNameStart, Bool.or_eq_true, Bool.and_eq_true, decide_eq_true_eq, Char.le_def,
    UInt32.le_iff_toNat_le] at h
  simp only [Number.isDigit, Bool.and_eq_false_iff, decide_eq_false_iff_not, Char.le_def,
    UInt32.le_iff_toNat_le]
  rcases h with (⟨ha, -⟩ | ⟨ha, -⟩) | rfl
  · have hlower : 97 ≤ c.val.toNat := ha
    have hnine : ('9' : Char).val.toNat = 57 := rfl
    omega
  · have hupper : 65 ≤ c.val.toNat := ha
    have hnine : ('9' : Char).val.toNat = 57 := rfl
    omega
  · decide

theorem ofText_of_name (h : isNameStart c = true) : ofText c text = ofName (c :: text) := by
  have hcomment : c ≠ '#' := by rintro rfl; exact absurd h (by decide)
  have hquote : c ≠ '"' := by rintro rfl; exact absurd h (by decide)
  have hminus : c ≠ '-' := by rintro rfl; exact absurd h (by decide)
  have hnumber : ¬(c = '-' || Number.isDigit c) = true := by
    simp [hminus, isDigit_of_isNameStart h]
  unfold ofText
  rw [if_neg hcomment, if_neg hquote, if_neg hnumber, if_pos h]

theorem ofText_of_blank (h : isBlankChar c = true) :
    ofText c text = ⟨.ok .blanks, text.dropWhile isBlankChar⟩ := by
  have hcases : (c = ' ' ∨ c = '\t') ∨ c = '\ufeff' := by simpa [isBlankChar] using h
  rcases hcases with (rfl | rfl) | rfl <;> rfl

/-- A character that is a token by itself is a lexeme. -/
theorem lexeme_of_single? (h : single? c = some token) : Lexeme token [c] rest := by
  unfold single? at h
  split at h <;> cases h
  next => exact .punctuator .bang
  next => exact .punctuator .dollar
  next => exact .punctuator .amp
  next => exact .punctuator .leftParen
  next => exact .punctuator .rightParen
  next => exact .punctuator .colon
  next => exact .punctuator .equals
  next => exact .punctuator .atSign
  next => exact .punctuator .leftBracket
  next => exact .punctuator .rightBracket
  next => exact .punctuator .leftBrace
  next => exact .punctuator .pipe
  next => exact .punctuator .rightBrace
  next => exact .comma

/-- The lexeme of a number. -/
theorem lexeme_of_ofNumber (h : ofNumber text = ⟨.ok token, rest⟩) :
    ∃ piece, text = piece ++ rest ∧ Lexeme token piece rest := by
  obtain ⟨isFloat, written, hw, ht, hrest, rfl⟩ := Numeral.ofNumber_eq_ok_iff.mp h
  cases isFloat with
  | false => exact ⟨written, ht, .intValue hw hrest⟩
  | true => exact ⟨written, ht, .floatValue hw hrest⟩

/-- The lexeme of a string, of either kind. -/
theorem lexeme_of_ofString (h : ofString text = ⟨.ok token, rest⟩) :
    ∃ piece, '"' :: text = piece ++ rest ∧ Lexeme token piece rest := by
  unfold ofString at h
  split at h
  next raw =>
    split at h
    next body last hread =>
      cases h
      obtain ⟨written, rfl, hfirst, rfl⟩ := BlockString.readRaw?_iff.mp hread
      refine ⟨BlockString.quotes ++ written ++ BlockString.quotes, ?_, .blockString hfirst⟩
      simp [BlockString.quotes]
    · cases h
  next hnot =>
    split at h
    next value last hread =>
      cases h
      obtain ⟨body, rfl, hbody⟩ := QuotedString.read_eq_ok_iff.mp hread
      refine ⟨'"' :: (body ++ ['"']), by simp, .stringValue hbody ?_⟩
      rintro ⟨raw, hraw⟩
      exact hnot raw (List.cons.inj hraw).2.symm
    · cases h

/-- The characters of a comment and the end of its line. -/
theorem comment_run_iff {body : List Char} :
    (∀ c ∈ body, (!QuotedString.isLineEnd c) = true) ∧
        StartsOutside (fun c => !QuotedString.isLineEnd c) rest ↔
      (∀ c ∈ body, c ≠ '\n' ∧ c ≠ '\r') ∧ ∀ c ∈ rest.head?, c = '\n' ∨ c = '\r' := by
  simp [StartsOutside, QuotedString.isLineEnd, or_iff_not_imp_left]

/-- A reading that gives a token has taken a lexeme. -/
theorem lexeme_of_ofText (h : ofText c text = ⟨.ok token, rest⟩) :
    ∃ piece, c :: text = piece ++ rest ∧ Lexeme token piece rest := by
  -- The cases are the tests on the first character, in the order of the reader.
  unfold ofText at h
  split at h
  next hc =>
    subst hc
    rw [ofComment, mk.injEq, Except.ok.injEq] at h
    obtain ⟨rfl, hrest⟩ := h
    obtain ⟨ht, hrun⟩ := takeWhile_dropWhile_iff.mp ⟨rfl, hrest⟩
    obtain ⟨hbody, hend⟩ := comment_run_iff.mp hrun
    exact ⟨_, congrArg (List.cons '#') ht, .comment hbody hend⟩
  split at h
  next hc => exact hc ▸ lexeme_of_ofString h
  split at h
  next => exact lexeme_of_ofNumber h
  split at h
  next hc =>
    have hchar : isNameChar c = true := by simp [isNameChar, hc]
    rw [ofName, List.takeWhile_cons_of_pos hchar, List.dropWhile_cons_of_pos hchar, mk.injEq,
      Except.ok.injEq] at h
    obtain ⟨rfl, hrest⟩ := h
    obtain ⟨ht, hmore, hend⟩ := takeWhile_dropWhile_iff.mp ⟨rfl, hrest⟩
    exact ⟨_, congrArg (List.cons c) ht, .name hc hmore hend⟩
  split at h
  next hc =>
    rw [mk.injEq, Except.ok.injEq] at h
    obtain ⟨rfl, hrest⟩ := h
    obtain ⟨ht, hmore, hend⟩ := takeWhile_dropWhile_iff.mp ⟨rfl, hrest⟩
    exact ⟨_, congrArg (List.cons c) ht, .blanks (List.forall_mem_cons.mpr ⟨hc, hmore⟩) hend⟩
  split at h
  next => cases h; exact ⟨['\r', '\n'], rfl, .returnFeed⟩
  next hnot =>
    cases h
    refine ⟨['\r'], rfl, .carriageReturn ?_⟩
    intro d hd
    obtain ⟨tail, rfl⟩ := List.head?_eq_some_iff.mp hd
    exact decide_eq_false fun he => hnot tail (by rw [he])
  next => cases h; exact ⟨['\n'], rfl, .lineFeed⟩
  next => cases h; exact ⟨['.', '.', '.'], rfl, .punctuator .spread⟩
  next =>
    split at h
    next hsingle => cases h; exact ⟨[c], rfl, lexeme_of_single? hsingle⟩
    next => cases h

theorem ofText_quote (text : List Char) : ofText '"' text = ofString text := rfl

/-- Where no three quotes start, a quoted string is read, and skipped if it cannot be read. -/
theorem ofString_of_not_quotes (h : ¬BlockString.quotes <+: '"' :: text) :
    ofString text =
      match QuotedString.read 1 text with
      | .ok (value, rest) => ⟨.ok (.stringValue (String.ofList value)), rest⟩
      | .error fault => ⟨.error fault, QuotedString.skip text⟩ := by
  unfold ofString
  split
  next raw => exact absurd (List.prefix_append BlockString.quotes raw) h
  next => rfl

/-- A number starts with a minus sign or a digit. -/
theorem exists_cons_of_mem_integer {piece : List Char} (h : piece ∈ Numeral.integer) :
    ∃ c more, piece = c :: more ∧ (c = '-' || Number.isDigit c) = true := by
  obtain ⟨_, rfl | rfl, number, hnumber, rfl⟩ := Language.mem_mul.mp h
  · rcases hnumber with rfl | hnumber
    · exact ⟨'0', [], rfl, by decide⟩
    · obtain ⟨c, more, hc, -, rfl⟩ := Numeral.mem_one_mul_run.mp hnumber
      exact ⟨c, more, rfl, by simp [(Numeral.isDigit_and_ne_zero_iff.mpr hc).1]⟩
  · exact ⟨'-', number, rfl, by decide⟩

theorem exists_cons_of_mem_numbers {piece : List Char} {isFloat : Bool}
    (h : piece ∈ Numeral.numbers isFloat) :
    ∃ c more, piece = c :: more ∧ (c = '-' || Number.isDigit c) = true := by
  cases isFloat with
  | false => exact exists_cons_of_mem_integer h
  | true =>
    obtain ⟨whole, hwhole, tail, -, rfl⟩ := Language.mem_mul.mp h
    obtain ⟨c, more, rfl, hc⟩ := exists_cons_of_mem_integer hwhole
    exact ⟨c, more ++ tail, rfl, hc⟩

/-- A number that nothing continues is a lexeme that is read whole. -/
theorem ofText_of_mem_numbers {piece : List Char} (isFloat : Bool)
    (h : piece ∈ Numeral.numbers isFloat) (hrest : StartsOutside Numeral.continues rest) :
    ∃ c more, piece = c :: more ∧
      ofText c (more ++ rest) = ⟨.ok (ofNumber.numberToken isFloat piece), rest⟩ := by
  obtain ⟨c, more, rfl, hc⟩ := exists_cons_of_mem_numbers h
  refine ⟨c, more, rfl, ?_⟩
  rw [ofText_of_number hc]
  exact Numeral.ofNumber_eq_ok_iff.mpr ⟨isFloat, _, h, rfl, hrest, rfl⟩

/-- A lexeme has a first character, and reading there gives its token and leaves what follows. -/
theorem ofText_of_lexeme {piece : List Char} (h : Lexeme token piece rest) :
    ∃ c more, piece = c :: more ∧ ofText c (more ++ rest) = ⟨.ok token, rest⟩ := by
  cases h with
  | @name first more _ hfirst hmore hrest =>
    refine ⟨first, more, rfl, ?_⟩
    have hchar : isNameChar first = true := by simp [isNameChar, hfirst]
    obtain ⟨htake, hdrop⟩ := takeWhile_dropWhile_iff.mpr ⟨rfl, hmore, hrest⟩
    rw [ofText_of_name hfirst, ofName, List.takeWhile_cons_of_pos hchar,
      List.dropWhile_cons_of_pos hchar, htake, hdrop]
  | intValue h hrest => exact ofText_of_mem_numbers false h hrest
  | floatValue h hrest => exact ofText_of_mem_numbers true h hrest
  | @stringValue body value _ hbody hquotes =>
    refine ⟨'"', body ++ ['"'], rfl, ?_⟩
    have hread : QuotedString.read 1 (body ++ '"' :: rest) = .ok (value, rest) :=
      QuotedString.read_complete hbody
    rw [List.append_assoc, List.singleton_append]
    rw [ofText_quote, ofString_of_not_quotes hquotes, hread]
  | @blockString body _ hfirst =>
    refine ⟨'"', '"' :: '"' :: (body ++ BlockString.quotes), rfl, ?_⟩
    have hread : BlockString.readRaw? (body ++ BlockString.quotes ++ rest) =
        some (BlockString.unescape body, rest) :=
      BlockString.readRaw?_iff.mpr ⟨body, rfl, hfirst, rfl⟩
    show ofString ('"' :: '"' :: (body ++ BlockString.quotes ++ rest)) = _
    simp only [ofString, hread]
  | @comment body _ hbody hrest =>
    refine ⟨'#', body, rfl, ?_⟩
    obtain ⟨htake, hdrop⟩ :=
      takeWhile_dropWhile_iff.mpr ⟨rfl, comment_run_iff.mpr ⟨hbody, hrest⟩⟩
    show ofComment (body ++ rest) = _
    rw [ofComment, htake, hdrop]
  | punctuator mark => cases mark <;> exact ⟨_, _, rfl, rfl⟩
  | comma => exact ⟨_, _, rfl, rfl⟩
  | lineFeed => exact ⟨_, _, rfl, rfl⟩
  | returnFeed => exact ⟨_, _, rfl, rfl⟩
  | carriageReturn hrest =>
    refine ⟨'\r', [], rfl, ?_⟩
    cases rest with
    | nil => rfl
    | cons d tail =>
      have hd : d ≠ '\n' := by simpa [StartsOutside] using hrest
      simp [ofText, hd, Number.isDigit, isNameStart, isBlankChar]
  | @blanks first more _ hpiece hrest =>
    refine ⟨first, more, rfl, ?_⟩
    obtain ⟨hfirst, hmore⟩ := List.forall_mem_cons.mp hpiece
    rw [ofText_of_blank hfirst, (takeWhile_dropWhile_iff.mpr ⟨rfl, hmore, hrest⟩).2]

end Reading

/-- A region is told by the diagnostic of its fault. -/
theorem Region.diagnostic?_eq_some_iff {region : Located Span Region} {problem : Diagnostic Span} :
    diagnostic? region = some problem ↔ ∃ fault, region.value.outcome = .error fault ∧
      problem = fault.diagnostic region.place.start := by
  unfold diagnostic?
  split
  next token htoken => simp [htoken]
  next fault hfault => simp [hfault, eq_comm]

/-- Tokens cover a text if their byte ranges tile it. -/
theorem Token.Cover.of_tiling {source : String} {tokens : List (Located Span Token)}
    (h : Span.Tiling source (tokens.map (·.place))) : Token.Cover source tokens where
  nonempty token ht := h.nonempty _ (List.mem_map_of_mem ht)
  boundaries token ht := h.boundaries _ (List.mem_map_of_mem ht)
  consecutive := (List.isChain_map _).mp h.consecutive
  first token ht := h.first _ (by rw [List.head?_map]; exact Option.mem_map_of_mem _ ht)
  last token ht := h.last _ (by rw [List.getLast?_map]; exact Option.mem_map_of_mem _ ht)
  empty hnil := h.empty (List.map_eq_nil_iff.mpr hnil)

namespace Lexeme

variable {token : Token} {text piece rest : List Char} {split other : List (Token × List Char)}
  {start : Nat} {source : String}

/-- The region that a lexeme takes. -/
def region (lexeme : Token × List Char) : Region := ⟨lexeme.2, .ok lexeme.1⟩

/-- A lexeme is the first region of its text. -/
theorem cut_append (h : Lexeme token piece rest) :
    Region.cut (piece ++ rest) = region (token, piece) :: Region.cut rest := by
  obtain ⟨c, more, rfl, hread⟩ := Reading.ofText_of_lexeme h
  have htake : (c :: (more ++ rest)).take ((more ++ rest).length + 1 - rest.length) =
      c :: more := by
    have hlength : (more ++ rest).length + 1 - rest.length = (c :: more).length := by
      rw [List.length_append, List.length_cons]
      omega
    rw [hlength, ← List.cons_append, List.take_left]
  rw [List.cons_append, Region.cut, hread, Region.ofReading, htake]
  rfl

/-- Lexemes in sequence are the regions of their text. -/
theorem Splits.cut_eq (h : Splits text split) : Region.cut text = split.map region := by
  induction h with
  | nil => rw [Region.cut, List.map_nil]
  | cons hfirst _ ih => rw [cut_append hfirst, ih, List.map_cons]

/-- A text whose regions all hold tokens is a sequence of lexemes. -/
theorem exists_splits_of_cut
    (h : ∀ region ∈ Region.cut text, ∃ token, region.outcome = .ok token) :
    ∃ split, Splits text split := by
  fun_induction Region.cut text with
  | case1 => exact ⟨[], .nil⟩
  | case2 c text ih =>
    obtain ⟨⟨token, htoken⟩, hrest⟩ := List.forall_mem_cons.mp h
    obtain ⟨split, hsplit⟩ := ih hrest
    have hread : Reading.ofText c text = ⟨.ok token, (Reading.ofText c text).rest⟩ := by
      rw [← htoken]
      rfl
    obtain ⟨piece, ht, hlexeme⟩ := Reading.lexeme_of_ofText hread
    exact ⟨(token, piece) :: split, ht ▸ .cons hlexeme hsplit⟩

/-- A text is a sequence of lexemes in at most one way. -/
theorem Splits.unique (h : Splits text split) (h' : Splits text other) : split = other := by
  have hregions : split.map region = other.map region := h.cut_eq.symm.trans h'.cut_eq
  refine List.map_injective_iff.mpr ?_ hregions
  rintro ⟨token, piece⟩ ⟨token', piece'⟩ he
  cases he
  rfl

theorem filterMap_diagnostic?_eq_nil_iff {regions : List Region} :
    (Region.locate start regions).filterMap Region.diagnostic? = [] ↔
      ∀ region ∈ regions, ∃ token, region.outcome = .ok token := by
  induction regions generalizing start with
  | nil => simp [Region.locate]
  | cons region rest ih =>
    obtain ⟨text, outcome⟩ := region
    cases outcome with
    | ok token =>
      rw [Region.locate, List.filterMap_cons_none rfl, ih]
      simp
    | error fault => simp [Region.locate, Region.diagnostic?]

theorem filterMap_token?_locate :
    (Region.locate start (split.map region)).filterMap Region.token? = locate start split := by
  induction split generalizing start with
  | nil => rfl
  | cons lexeme rest ih => simp [Region.locate, region, Region.token?, locate, ih]

/-- Scanning gives the tokens of the lexemes of a text, where these stand. -/
theorem scan_eq_ok_iff {tokens : List (Located Span Token)} :
    Token.scan source = .ok tokens ↔
      ∃ split, Splits source.toList split ∧ locate 0 split = tokens := by
  constructor
  · intro h
    unfold Token.scan at h
    simp only at h
    split at h
    next hnone =>
      obtain ⟨split, hsplit⟩ :=
        exists_splits_of_cut (filterMap_diagnostic?_eq_nil_iff.mp hnone)
      rw [hsplit.cut_eq, filterMap_token?_locate] at h
      exact ⟨split, hsplit, Except.ok.inj h⟩
    · cases h
  · rintro ⟨split, hsplit, rfl⟩
    have hnone : (Region.locate 0 (split.map region)).filterMap Region.diagnostic? = [] := by
      rw [filterMap_diagnostic?_eq_nil_iff]
      intro item hi
      obtain ⟨lexeme, -, rfl⟩ := List.mem_map.mp hi
      exact ⟨lexeme.1, rfl⟩
    simp only [Token.scan, hsplit.cut_eq, hnone, filterMap_token?_locate]

/-- A lexeme has a first character. -/
theorem ne_nil (h : Lexeme token piece rest) : piece ≠ [] := by
  obtain ⟨c, more, rfl, -⟩ := Reading.ofText_of_lexeme h
  exact List.cons_ne_nil c more

/-- What is located stands where its byte range says. -/
theorem Splits.holds (h : Splits text split) {before : List Char}
    (hsource : source.toList = before ++ text) :
    List.Forall₂ (fun token lexeme => token.value = lexeme.1 ∧
      token.place.Holds source (String.ofList lexeme.2))
      (locate (utf8Length before) split) split := by
  -- By induction on the lexemes, with all that stands before them carried along.
  induction h generalizing before with
  | nil => exact .nil
  | @cons token piece rest split hfirst _ ih =>
    refine .cons ⟨rfl, ?_⟩ ?_
    · rw [← utf8Length_append]
      exact Span.holds_between hsource
    · rw [← utf8Length_append]
      exact ih (by rw [hsource, List.append_assoc])

/-- The byte ranges of lexemes are those of their pieces. -/
theorem map_place_locate :
    (locate start split).map (·.place) = Span.tile start (split.map (·.2)) := by
  induction split generalizing start with
  | nil => rfl
  | cons lexeme rest ih => rw [locate, List.map_cons, ih, List.map_cons, Span.tile]

/-- The pieces of lexemes make up their text, and none is empty. -/
theorem Splits.pieces (h : Splits text split) :
    text = (split.map (·.2)).flatten ∧ ∀ piece ∈ split.map (·.2), piece ≠ [] := by
  induction h with
  | nil => simp
  | cons hfirst _ ih =>
    rw [List.map_cons, List.flatten_cons, ← ih.1, List.forall_mem_cons]
    exact ⟨rfl, hfirst.ne_nil, ih.2⟩

theorem Splits.tiling (h : Splits source.toList split) :
    Span.Tiling source ((locate 0 split).map (·.place)) :=
  map_place_locate ▸ Span.tiling_tile h.pieces.2 h.pieces.1

theorem Splits.cover (h : Splits source.toList split) : Token.Cover source (locate 0 split) :=
  .of_tiling h.tiling

end Lexeme

/-- A text with lexical faults gets the diagnostics of these. -/
theorem Token.scan_eq_error_iff {source : String} {problems : List (Diagnostic Span)} :
    Token.scan source = .error problems ↔ problems ≠ [] ∧
      problems = (Region.locate 0 (Region.cut source.toList)).filterMap Region.diagnostic? := by
  simp only [Token.scan]
  cases (Region.locate 0 (Region.cut source.toList)).filterMap Region.diagnostic? with
  | nil => simp
  | cons problem rest =>
    constructor
    · intro h
      obtain rfl := Except.error.inj h
      exact ⟨List.cons_ne_nil _ _, rfl⟩
    · rintro ⟨-, rfl⟩
      rfl

/-- The diagnostics of a text with lexical faults are those of faults. -/
theorem Token.exists_fault_of_scan {source : String} {problems : List (Diagnostic Span)}
    (h : Token.scan source = .error problems) {problem : Diagnostic Span}
    (hp : problem ∈ problems) :
    ∃ region ∈ Region.locate 0 (Region.cut source.toList), ∃ fault,
      region.value.outcome = .error fault ∧ problem = fault.diagnostic region.place.start := by
  rw [(scan_eq_error_iff.mp h).2, List.mem_filterMap] at hp
  obtain ⟨region, hregion, hproblem⟩ := hp
  exact ⟨region, hregion, Region.diagnostic?_eq_some_iff.mp hproblem⟩

/-- A text is cut into tokens exactly if it is a sequence of lexemes. The sequence is then the only
one, the tokens are those of its lexemes, and they stand where these do and cover the text. -/
theorem Token.scan_exact (source : String) :
    (∀ tokens, Token.scan source = .ok tokens ↔
      ∃ split, Lexeme.Splits source.toList split ∧ Lexeme.locate 0 split = tokens) ∧
    (∀ split other, Lexeme.Splits source.toList split → Lexeme.Splits source.toList other →
      split = other) ∧
    ∀ split, Lexeme.Splits source.toList split →
      Token.Cover source (Lexeme.locate 0 split) ∧
      List.Forall₂ (fun token lexeme => token.value = lexeme.1 ∧
        token.place.Holds source (String.ofList lexeme.2)) (Lexeme.locate 0 split) split := by
  refine ⟨fun tokens => Lexeme.scan_eq_ok_iff, fun split other h h' => h.unique h', ?_⟩
  intro split h
  exact ⟨h.cover, h.holds (List.nil_append source.toList).symm⟩

/-- An empty string, a block string with three quotes in it, escapes, a number and a comment stand
side by side. -/
theorem Token.scan_exact_strings :
    let source := "\"\" \"\"\"a\\\"\"\"b\"\"\"\"\\u\x7b41\x7d\\n\"-0.5e+3,_1#é"
    ∃ tokens, Token.scan source = .ok tokens ∧ Token.Cover source tokens := by
  intro source
  have hok : (Token.scan source).isOk = true := by decide +kernel
  obtain ⟨tokens, h⟩ := exists_ok_of_isOk hok
  obtain ⟨split, hsplit, rfl⟩ := ((scan_exact source).1 tokens).mp h
  exact ⟨_, h, ((scan_exact source).2.2 split hsplit).1⟩

end SdlGraph
