import SdlGraph.Proofs.Catalog.Outcome
import SdlGraph.Proofs.Token.Insertion
import SdlGraph.Proofs.Token.LineFeeds

/-!
# The layout of a schema text

How the tokens of a schema text are spaced and commented does not matter: trivia put between two
tokens moves the significant tokens behind it and changes none of them. The catalog, or the
diagnostics apart from the places that they point at, stay the same.
-/

namespace SdlGraph

/-- Trivia put between two tokens of a text without lexical faults, or before or behind all of
them, causes no fault. The significant tokens stay the same, those behind the trivia move by its
length, and the catalog or the diagnostics apart from their places stay the same. -/
theorem Catalog.outcome_insert_trivia {before trivia after : String}
    {tokens : List (Located Span Token)} (hscan : Token.scan (before ++ after) = .ok tokens)
    (hplace : Token.Between tokens before.utf8ByteSize) (htrivia : Trivia trivia.toList) :
    (∃ moved, Token.scan (before ++ trivia ++ after) = .ok moved ∧
      moved.filter (fun token => !token.value.isTrivia) =
        (tokens.filter fun token => !token.value.isTrivia).map
          (Located.mapPlace (Span.makeRoom before.utf8ByteSize trivia.utf8ByteSize))) ∧
    outcome (before ++ trivia ++ after) = outcome (before ++ after) := by
  obtain ⟨split, hsplit, rfl⟩ := Lexeme.scan_eq_ok_iff.mp hscan
  have hbytes : before.utf8ByteSize = utf8Length before.toList := by
    rw [← utf8ByteSize_ofList, String.ofList_toList]
  have hbetween : ∀ token ∈ Lexeme.locate 0 split,
      token.place.stop ≤ 0 + utf8Length before.toList ∨
        0 + utf8Length before.toList ≤ token.place.start := by
    rw [Nat.zero_add, ← hbytes]
    exact hplace
  rw [String.toList_append] at hsplit
  obtain ⟨front, back, rfl, hfront, hback⟩ := hsplit.exists_append rfl hbetween
  have hmoved := hsplit.ofSource_insert hfront hback htrivia
  refine ⟨SignificantTokens.ofSource_eq_ok_iff.mp hmoved, ?_⟩
  have hsource : SignificantTokens.ofSource (before ++ after) =
      .ok ⟨Lexeme.significant 0 (front ++ back)⟩ :=
    SignificantTokens.ofSource_eq_ok_iff.mpr ⟨_, hscan, rfl⟩
  rw [outcome_eq_ofTokens hmoved, outcome_eq_ofTokens hsource]
  congr 1
  rw [SignificantTokens.values, SignificantTokens.values, List.map_map]
  rfl

/-- A comment, a carriage return and more go between another comment and the end of its line. -/
theorem Catalog.outcome_insert_trivia_comment :
    let before := "#é"
    let trivia := " #w\n,\ufeff\r"
    let after := "\ntype Query\x7ba:Int\x7d"
    (∃ moved, Token.scan (before ++ trivia ++ after) = .ok moved) ∧
      outcome (before ++ trivia ++ after) = outcome (before ++ after) ∧
      (outcome (before ++ after)).isOk = true := by
  intro before trivia after
  have hok : (Token.scan (before ++ after)).isOk = true := by decide +kernel
  obtain ⟨tokens, hscan⟩ := exists_ok_of_isOk hok
  have hplaces : ∀ token ∈ (Token.scan (before ++ after)).toOption.getD [],
      token.place.stop ≤ before.utf8ByteSize ∨ before.utf8ByteSize ≤ token.place.start := by
    decide +kernel
  have hplace : Token.Between tokens before.utf8ByteSize := by
    rw [hscan] at hplaces
    exact hplaces
  have htrivia : Trivia trivia.toList := by
    have hline : Trivia ('#' :: (['w'] ++ '\n' :: [',', '\ufeff', '\r'])) :=
      .comment (List.forall_mem_singleton.mpr rfl) rfl (.comma (.blank rfl (.lineEnd rfl .nil)))
    have htext : trivia.toList = ' ' :: '#' :: 'w' :: '\n' :: [',', '\ufeff', '\r'] := by
      decide +kernel
    rw [htext]
    exact .blank rfl hline
  obtain ⟨⟨moved, hmoved, -⟩, houtcome⟩ := outcome_insert_trivia hscan hplace htrivia
  exact ⟨⟨moved, hmoved⟩, houtcome, by decide +kernel⟩

namespace Reading

/-- What remains of a text and of the same text with line feeds: the same with line feeds, or what
starts inside a line break in the one and behind it in the other. -/
def Aligned (rest' rest : List Char) : Prop :=
  rest' = lineFeeds rest ∨ ∃ after, rest = '\n' :: after ∧ rest' = lineFeeds after

/-- Two readings give the same, apart from the lengths in faults, and go on side by side. -/
structure Agree (reading' reading : Reading) : Prop where
  /-- The same token, or faults with the same diagnostic apart from places. -/
  outcome : Essential.kind reading'.outcome = Essential.kind reading.outcome
  /-- What remains is aligned. -/
  rest : Aligned reading'.rest reading.rest

theorem ofString_lineFeeds (text : List Char) :
    Agree (ofString (lineFeeds text)) (ofString text) := by
  have hquotes : ∀ c ∈ ['"', '"'], QuotedString.isLineEnd c = false :=
    forall_isLineEnd_eq_false rfl
  by_cases hblock : BlockString.quotes <+: '"' :: text
  · obtain ⟨raw, hraw⟩ := hblock
    obtain rfl : '"' :: '"' :: raw = text := (List.cons.inj hraw).2
    have hfeeds : lineFeeds ('"' :: '"' :: raw) = '"' :: '"' :: lineFeeds raw := rfl
    rw [hfeeds, ofString, ofString, BlockString.readRaw?_lineFeeds]
    cases BlockString.readRaw? raw with
    | none => exact ⟨rfl, .inl rfl⟩
    | some answer =>
      obtain ⟨body, rest⟩ := answer
      have hvalue : BlockString.value (lineFeeds body) = BlockString.value body := by
        rw [BlockString.value, BlockString.value, BlockString.lines_lineFeeds]
      simp only [Option.map_some, Prod.map_apply, hvalue]
      exact ⟨rfl, .inl rfl⟩
  · have hblock' : ¬BlockString.quotes <+: '"' :: lineFeeds text := by
      rintro ⟨raw, hraw⟩
      obtain ⟨rest, rfl, -⟩ :=
        (lineFeeds_eq_append_iff hquotes).mp (List.cons.inj hraw).2.symm
      exact hblock ⟨rest, rfl⟩
    rw [ofString_of_not_quotes hblock, ofString_of_not_quotes hblock',
      QuotedString.read_lineFeeds]
    cases QuotedString.read 1 text with
    | ok answer => exact ⟨rfl, .inl rfl⟩
    | error fault => exact ⟨rfl, QuotedString.skip_lineFeeds text⟩

/-- A character that starts no longer token is read by itself. -/
theorem ofText_of_single {c : Char} {text : List Char} (hcomment : c ≠ '#') (hquote : c ≠ '"')
    (hnumber : ¬(c = '-' || Number.isDigit c) = true) (hname : ¬isNameStart c = true)
    (hblank : ¬isBlankChar c = true) (hreturn : c ≠ '\r') (hfeed : c ≠ '\n')
    (hpoints : ¬(c = '.' ∧ ∃ rest, text = '.' :: '.' :: rest)) :
    ofText c text =
      match single? c with
      | some token => ⟨.ok token, text⟩
      | none => ⟨.error .unexpectedCharacter, text⟩ := by
  unfold ofText
  rw [if_neg hcomment, if_neg hquote, if_neg hnumber, if_neg hname, if_neg hblank]
  split
  · exact absurd rfl hreturn
  · exact absurd rfl hreturn
  · exact absurd rfl hfeed
  · exact absurd ⟨rfl, _, rfl⟩ hpoints
  · rfl

theorem ofText_lineFeeds {c : Char} (hreturn : c ≠ '\r') (text : List Char) :
    Agree (ofText c (lineFeeds text)) (ofText c text) := by
  have hfeeds : c :: lineFeeds text = lineFeeds (c :: text) := (lineFeeds_cons hreturn).symm
  -- The cases are the tests on the first character, in the order of the reader.
  by_cases hcomment : c = '#'
  · subst hcomment
    obtain ⟨htake, hdrop⟩ :=
      takeWhile_dropWhile_lineFeeds (p := fun c => !QuotedString.isLineEnd c) rfl rfl text
    show Agree (ofComment (lineFeeds text)) (ofComment text)
    rw [ofComment, ofComment, htake, hdrop]
    exact ⟨rfl, .inl rfl⟩
  by_cases hquote : c = '"'
  · subst hquote
    exact ofString_lineFeeds text
  by_cases hnumber : (c = '-' || Number.isDigit c) = true
  · rw [ofText_of_number hnumber, ofText_of_number hnumber, hfeeds, ofNumber_lineFeeds hreturn]
    exact ⟨rfl, .inl rfl⟩
  by_cases hname : isNameStart c = true
  · obtain ⟨htake, hdrop⟩ :=
      takeWhile_dropWhile_lineFeeds (p := isNameChar) rfl rfl (c :: text)
    rw [ofText_of_name hname, ofText_of_name hname, hfeeds, ofName, ofName, htake, hdrop]
    exact ⟨rfl, .inl rfl⟩
  by_cases hblank : isBlankChar c = true
  · rw [ofText_of_blank hblank, ofText_of_blank hblank]
    exact ⟨rfl, .inl (takeWhile_dropWhile_lineFeeds rfl rfl text).2⟩
  by_cases hfeed : c = '\n'
  · subst hfeed
    exact ⟨rfl, .inl rfl⟩
  by_cases hpoints : c = '.' ∧ ∃ rest, text = '.' :: '.' :: rest
  · obtain ⟨rfl, rest, rfl⟩ := hpoints
    exact ⟨rfl, .inl rfl⟩
  have hpoints' : ¬(c = '.' ∧ ∃ rest, lineFeeds text = '.' :: '.' :: rest) := by
    rintro ⟨hc, rest', htext⟩
    have hplain : ∀ c ∈ ['.', '.'], QuotedString.isLineEnd c = false :=
      forall_isLineEnd_eq_false rfl
    obtain ⟨rest, hrest, -⟩ := (lineFeeds_eq_append_iff hplain).mp htext
    exact hpoints ⟨hc, rest, hrest⟩
  rw [ofText_of_single hcomment hquote hnumber hname hblank hreturn hfeed hpoints,
    ofText_of_single hcomment hquote hnumber hname hblank hreturn hfeed hpoints']
  cases single? c with
  | some token => exact ⟨rfl, .inl rfl⟩
  | none => exact ⟨rfl, .inl rfl⟩

end Reading

/-- A text holds the same with line feeds for its line breaks. -/
theorem Region.contents_lineFeeds (text : List Char) :
    contents (lineFeeds text) = contents text := by
  induction hlength : text.length using Nat.strongRecOn generalizing text with
  | ind length ih =>
    subst hlength
    cases text with
    | nil => rfl
    | cons c text =>
      by_cases hc : c = '\r'
      · subst hc
        rw [contents_lineEnd rfl]
        by_cases hfeed : text.head? = some '\n'
        · obtain ⟨rest, rfl⟩ := List.head?_eq_some_iff.mp hfeed
          rw [lineFeeds_returnFeed, contents_lineEnd rfl, contents_lineEnd rfl]
          exact ih rest.length (by simp only [List.length_cons]; omega) rest rfl
        · rw [lineFeeds_return hfeed, contents_lineEnd rfl]
          exact ih text.length (by simp) text rfl
      · obtain ⟨houtcome, hrest⟩ := Reading.ofText_lineFeeds hc text
        have hle : (Reading.ofText c text).rest.length ≤ text.length :=
          (Reading.ofText_suffix c text).length_le
        rw [lineFeeds_cons hc, contents_cons, contents_cons, houtcome]
        rcases hrest with haligned | ⟨after, hafter, haligned⟩
        · have hlt : (Reading.ofText c text).rest.length < (c :: text).length := by
            rw [List.length_cons]
            omega
          rw [haligned, ih _ hlt _ rfl]
        · have hlt : after.length < (c :: text).length := by
            rw [hafter, List.length_cons] at hle
            rw [List.length_cons]
            omega
          rw [haligned, hafter, contents_lineEnd rfl, ih _ hlt _ rfl]

/-- A schema text and the same text with line feeds for its line breaks give the same catalog, or
the same diagnostics apart from their places. -/
theorem Catalog.outcome_lineFeeds (source : String) :
    outcome (String.ofList (lineFeeds source.toList)) = outcome source := by
  refine outcome_congr ?_
  rw [String.toList_ofList, Region.contents_lineFeeds]

end SdlGraph
