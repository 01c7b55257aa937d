import SdlGraph.Proofs.Token.Insertion

/-!
# Texts one after the other

The end of a line behind a text without faults ends its last token, and a comment if the text ends
in one, and it is no part of a token behind it. So texts on lines of their own have the tokens that
they have by themselves.
-/

namespace SdlGraph

open Region (essentials)
open Lexeme (significant)

/-- A line break, whichever characters it is written with. -/
def lineBreaks : List String := ["\n", "\r\n", "\r"]

/-- The end of a line behind a lexeme leaves the lexeme, whatever stood there before. -/
theorem Lexeme.essentials_lineEnd {token : Token} {piece rest more : List Char}
    (h : Lexeme token piece rest) {c : Char} (hend : QuotedString.isLineEnd c = true)
    (start : Nat) : essentials start (piece ++ c :: more) =
      (significant start [(token, piece)]).map Essential.ofToken ++
        essentials (start + utf8Length piece) (c :: more) := by
  have hhead : ∀ d ∈ (c :: more).head?, d = c := fun d hd => (Option.mem_some_iff.mp hd).symm
  cases hsignificant : token.isTrivia with
  | false =>
    refine Region.essentials_piece (h.before_trivia hsignificant fun d hd => ?_)
    rw [hhead d hd]
    exact (Trivia.lineEnd hend .nil).head? c rfl
  | true =>
    have hnone : significant start [(token, piece)] = [] := by
      simp [significant, locate, hsignificant]
    rw [hnone, List.map_nil, List.nil_append]
    rcases h.trivia_or_comment hsignificant with hpiece | ⟨body, rfl, hbody, -⟩
    · exact Region.essentials_trivia hpiece
    · exact Region.essentials_comment hbody fun d hd => hhead d hd ▸ hend

/-- The end of a line behind a text without faults leaves its tokens, whatever follows. -/
theorem Lexeme.Splits.essentials_lineEnd {text more : List Char} {split : List (Token × List Char)}
    (h : Splits text split) {c : Char} (hend : QuotedString.isLineEnd c = true) (start : Nat) :
    essentials start (text ++ c :: more) =
      (significant start split).map Essential.ofToken ++
        essentials (start + utf8Length text) (c :: more) := by
  induction h generalizing start with
  | nil => rfl
  | @cons token piece text split hfirst hrest ih =>
    have hpiece : essentials start (piece ++ (text ++ c :: more)) =
        (significant start [(token, piece)]).map Essential.ofToken ++
          essentials (start + utf8Length piece) (text ++ c :: more) := by
      cases text with
      | nil => exact hfirst.essentials_lineEnd hend start
      | cons d text => exact Region.essentials_piece (hfirst.of_head? rfl)
    rw [List.append_assoc, hpiece, ih, significant_cons start (token, piece) split,
      utf8Length_append, List.map_append, List.append_assoc]
    simp only [Nat.add_assoc]

/-- A line break is the end of a line and trivia. -/
theorem exists_cons_of_mem_lineBreaks {lineBreak : String} (h : lineBreak ∈ lineBreaks) :
    ∃ c more, lineBreak.toList = c :: more ∧ QuotedString.isLineEnd c = true ∧ Trivia more := by
  simp only [lineBreaks, List.mem_cons, List.not_mem_nil, or_false] at h
  rcases h with rfl | rfl | rfl
  · exact ⟨'\n', [], by decide +kernel, rfl, .nil⟩
  · exact ⟨'\r', ['\n'], by decide +kernel, rfl, .lineEnd rfl .nil⟩
  · exact ⟨'\r', [], by decide +kernel, rfl, .nil⟩

/-- The significant tokens of a text are those of a split of it. -/
theorem SignificantTokens.exists_splits {source : String} {tokens : SignificantTokens}
    (h : ofSource source = .ok tokens) :
    ∃ split, Lexeme.Splits source.toList split ∧ tokens.tokens = significant 0 split := by
  obtain ⟨all, hall, htokens⟩ := ofSource_eq_ok_iff.mp h
  obtain ⟨split, hsplit, rfl⟩ := Lexeme.scan_eq_ok_iff.mp hall
  exact ⟨split, hsplit, htokens.symm⟩

/-- Texts without faults on lines of their own are together a text without faults, with the
significant tokens of the one and then those of the other. -/
theorem SignificantTokens.ofSource_append {first second lineBreak : String}
    {tokens more : SignificantTokens} (hfirst : ofSource first = .ok tokens)
    (hsecond : ofSource second = .ok more) (hbreak : lineBreak ∈ lineBreaks) :
    ∃ all, ofSource (first ++ lineBreak ++ second) = .ok all ∧
      all.values = tokens.values ++ more.values := by
  obtain ⟨split, hsplit, htokens⟩ := exists_splits hfirst
  obtain ⟨other, hother, hmore⟩ := exists_splits hsecond
  obtain ⟨c, trivia, hlineBreak, hend, htrivia⟩ := exists_cons_of_mem_lineBreaks hbreak
  have htext : (first ++ lineBreak ++ second).toList =
      first.toList ++ c :: (trivia ++ second.toList) := by
    rw [String.toList_append, String.toList_append, hlineBreak, List.append_assoc,
      List.cons_append]
  let offset := 0 + utf8Length first.toList + c.utf8Size + utf8Length trivia
  have hessentials : essentials 0 (first ++ lineBreak ++ second).toList =
      (significant 0 split ++ significant offset other).map Essential.ofToken := by
    rw [htext, hsplit.essentials_lineEnd hend, Region.essentials_lineEnd hend,
      Region.essentials_trivia htrivia, hother.essentials_eq, List.map_append]
  have hall : ofSource (first ++ lineBreak ++ second) =
      .ok ⟨significant 0 split ++ significant offset other⟩ := by
    rw [ofSource_eq, hessentials, Essential.filterMap_diagnostic?_ofToken,
      Essential.filterMap_token?_ofToken]
  have hmoved : (significant offset other).map (·.value) =
      (significant 0 other).map (·.value) := by
    rw [← Nat.zero_add offset, Lexeme.significant_shift, List.map_map]
    rfl
  refine ⟨_, hall, ?_⟩
  rw [values, values, values, htokens, hmore, List.map_append, hmoved]

end SdlGraph
