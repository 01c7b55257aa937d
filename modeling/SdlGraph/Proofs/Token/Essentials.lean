import SdlGraph.Document.Source
import SdlGraph.Proofs.Token.Splitting

/-!
# What a text holds besides trivia

Comments, commas, blanks and line breaks are tokens that the grammar ignores. What remains of a text
are its essentials: the significant tokens and the faults, each where it stands. Trivia in front of
a text moves its essentials by the length of the trivia and changes nothing else, whatever the text
is. All later steps see no more of a text than its essentials.
-/

namespace SdlGraph

/-- A significant token, or a fault in its place. -/
abbrev Essential : Type := Except LexicalFault Token

namespace Region

/-- What a region holds besides trivia. -/
def essential? (region : Located Span Region) : Option (Located Span Essential) :=
  match region.value.outcome with
  | .ok token => if token.isTrivia then none else some ⟨.ok token, region.place⟩
  | .error fault => some ⟨.error fault, region.place⟩

/-- The significant tokens and the faults of a text that starts at byte `start`, in order. -/
def essentials (start : Nat) (text : List Char) : List (Located Span Essential) :=
  (locate start (cut text)).filterMap essential?

end Region

namespace Essential

/-- The token, where there is no fault. -/
def token? (item : Located Span Essential) : Option (Located Span Token) :=
  match item.value with
  | .ok token => some ⟨token, item.place⟩
  | .error _ => none

/-- The diagnostic of a fault. -/
def diagnostic? (item : Located Span Essential) : Option (Diagnostic Span) :=
  match item.value with
  | .ok _ => none
  | .error fault => some (fault.diagnostic item.place.start)

end Essential

/-- Spaces, tabs, byte order marks, commas, line breaks, and comments each closed by a line
break. -/
inductive Trivia : List Char → Prop where
  /-- Nothing. -/
  | nil : Trivia []
  /-- A space, a tab or a byte order mark. -/
  | blank {c : Char} {rest : List Char} (hblank : Reading.isBlankChar c = true)
      (hrest : Trivia rest) : Trivia (c :: rest)
  /-- A comma. -/
  | comma {rest : List Char} (hrest : Trivia rest) : Trivia (',' :: rest)
  /-- A line feed or a carriage return. Both together are a line break as well. -/
  | lineEnd {c : Char} {rest : List Char} (hend : QuotedString.isLineEnd c = true)
      (hrest : Trivia rest) : Trivia (c :: rest)
  /-- A comment with the end of its line. -/
  | comment {body rest : List Char} {c : Char}
      (hbody : ∀ d ∈ body, QuotedString.isLineEnd d = false)
      (hend : QuotedString.isLineEnd c = true) (hrest : Trivia rest) :
      Trivia ('#' :: (body ++ c :: rest))

namespace Region

variable {start : Nat} {c : Char} {text more rest : List Char} {token : Token}

theorem essentials_nil : essentials start [] = [] := by
  rw [essentials, cut, locate, List.filterMap_nil]

/-- What is read first is the first essential, unless it is trivia. -/
theorem essentials_append {outcome : Essential}
    (hread : Reading.ofText c (more ++ rest) = ⟨outcome, rest⟩) :
    essentials start (c :: (more ++ rest)) =
      (essential? ⟨⟨c :: more, outcome⟩,
        Span.between start (start + utf8Length (c :: more))⟩).toList ++
      essentials (start + utf8Length (c :: more)) rest := by
  have hlength : (more ++ rest).length + 1 - rest.length = (c :: more).length := by
    rw [List.length_append, List.length_cons]
    omega
  have htake : (c :: (more ++ rest)).take ((more ++ rest).length + 1 - rest.length) =
      c :: more := by
    rw [hlength, ← List.cons_append, List.take_left]
  have hcut : cut (c :: (more ++ rest)) = ⟨c :: more, outcome⟩ :: cut rest := by
    rw [cut, hread, ofReading, htake]
  rw [essentials, hcut, locate, List.filterMap_cons]
  cases essential? ⟨⟨c :: more, outcome⟩, Span.between start (start + utf8Length (c :: more))⟩ with
  | none => rfl
  | some item => rfl

/-- Trivia that is read first is no essential. -/
theorem essentials_skip (hread : Reading.ofText c (more ++ rest) = ⟨.ok token, rest⟩)
    (htrivia : token.isTrivia = true) :
    essentials start (c :: (more ++ rest)) = essentials (start + utf8Length (c :: more)) rest := by
  rw [essentials_append hread, essential?]
  simp only [htrivia, if_true, Option.toList_none, List.nil_append]

/-- Blanks at the start of a text can be skipped together. -/
theorem essentials_dropBlanks : essentials start text =
    essentials (start + utf8Length (text.takeWhile Reading.isBlankChar))
      (text.dropWhile Reading.isBlankChar) := by
  cases text with
  | nil => rfl
  | cons c text =>
    cases hblank : Reading.isBlankChar c with
    | false =>
      simp only [List.takeWhile_cons, List.dropWhile_cons, hblank, Bool.false_eq_true, if_false,
        utf8Length, Nat.add_zero]
    | true =>
      have hsplit : text = text.takeWhile Reading.isBlankChar ++
          text.dropWhile Reading.isBlankChar := List.takeWhile_append_dropWhile.symm
      have hread : Reading.ofText c (text.takeWhile Reading.isBlankChar ++
          text.dropWhile Reading.isBlankChar) =
          ⟨.ok .blanks, text.dropWhile Reading.isBlankChar⟩ := by
        rw [← hsplit]
        exact Reading.ofText_of_blank hblank
      rw [List.takeWhile_cons_of_pos hblank, List.dropWhile_cons_of_pos hblank]
      conv_lhs => rw [hsplit]
      exact essentials_skip hread rfl

/-- A blank in front joins the blanks that follow it. -/
theorem essentials_blank (hblank : Reading.isBlankChar c = true) :
    essentials start (c :: text) = essentials (start + c.utf8Size) text := by
  rw [essentials_dropBlanks, List.takeWhile_cons_of_pos hblank, List.dropWhile_cons_of_pos hblank,
    utf8Length, ← Nat.add_assoc]
  exact essentials_dropBlanks.symm

theorem essentials_comma : essentials start (',' :: text) = essentials (start + 1) text := by
  have hread : Reading.ofText ',' ([] ++ text) = ⟨.ok .comma, text⟩ := rfl
  exact essentials_skip hread rfl

theorem essentials_lineFeed : essentials start ('\n' :: text) = essentials (start + 1) text := by
  have hread : Reading.ofText '\n' ([] ++ text) = ⟨.ok .lineBreak, text⟩ := rfl
  exact essentials_skip hread rfl

/-- A carriage return in front joins a line feed that follows it. -/
theorem essentials_carriageReturn :
    essentials start ('\r' :: text) = essentials (start + 1) text := by
  by_cases hfeed : ∃ rest, text = '\n' :: rest
  · obtain ⟨rest, rfl⟩ := hfeed
    have hread : Reading.ofText '\r' (['\n'] ++ rest) = ⟨.ok .lineBreak, rest⟩ := rfl
    rw [essentials_lineFeed]
    exact essentials_skip hread rfl
  · have hrest : StartsOutside (· = '\n') text := by
      intro d hd
      obtain ⟨rest, rfl⟩ := List.head?_eq_some_iff.mp hd
      exact decide_eq_false fun he => hfeed ⟨rest, by rw [he]⟩
    obtain ⟨c, more, hpiece, hread⟩ := Reading.ofText_of_lexeme (Lexeme.carriageReturn hrest)
    obtain ⟨rfl, rfl⟩ := List.cons.inj hpiece
    exact essentials_skip hread rfl

theorem essentials_lineEnd (hend : QuotedString.isLineEnd c = true) :
    essentials start (c :: text) = essentials (start + c.utf8Size) text := by
  have hcases : c = '\n' ∨ c = '\r' := by simpa [QuotedString.isLineEnd] using hend
  rcases hcases with rfl | rfl
  · exact essentials_lineFeed
  · exact essentials_carriageReturn

/-- A comment ends where its line does. -/
theorem essentials_comment {body : List Char}
    (hbody : ∀ d ∈ body, QuotedString.isLineEnd d = false)
    (hrest : ∀ d ∈ rest.head?, QuotedString.isLineEnd d = true) :
    essentials start ('#' :: (body ++ rest)) =
      essentials (start + utf8Length ('#' :: body)) rest := by
  have hstop : StartsOutside (fun d => !QuotedString.isLineEnd d) rest := by
    intro d hd
    simp only [hrest d hd, Bool.not_true]
  have hrun : ∀ d ∈ body, (!QuotedString.isLineEnd d) = true := by
    intro d hd
    simp only [hbody d hd, Bool.not_false]
  obtain ⟨htake, hdrop⟩ := takeWhile_dropWhile_iff.mpr ⟨rfl, hrun, hstop⟩
  have hread : Reading.ofText '#' (body ++ rest) = ⟨.ok (.comment (String.ofList body)), rest⟩ := by
    show Reading.ofComment (body ++ rest) = _
    rw [Reading.ofComment, htake, hdrop]
  exact essentials_skip hread rfl

/-- Trivia in front of a text only moves its essentials. -/
theorem essentials_trivia {trivia : List Char} (h : Trivia trivia) :
    essentials start (trivia ++ text) = essentials (start + utf8Length trivia) text := by
  induction h generalizing start with
  | nil => rfl
  | blank hblank _ ih =>
    rw [List.cons_append, essentials_blank hblank, ih, utf8Length, Nat.add_assoc]
  | comma _ ih =>
    rw [List.cons_append, essentials_comma, ih, Nat.add_assoc]
    rfl
  | lineEnd hend _ ih =>
    rw [List.cons_append, essentials_lineEnd hend, ih, utf8Length, Nat.add_assoc]
  | @comment body rest c hbody hend _ ih =>
    have hhead : ∀ d ∈ (c :: (rest ++ text)).head?, QuotedString.isLineEnd d = true := by
      intro d hd
      obtain rfl : c = d := Option.some.inj hd
      exact hend
    have hlength : utf8Length ('#' :: (body ++ c :: rest)) =
        utf8Length ('#' :: body) + (c.utf8Size + utf8Length rest) := by
      rw [← List.cons_append, utf8Length_append, utf8Length.eq_2 c]
    calc essentials start ('#' :: (body ++ c :: rest) ++ text)
      _ = essentials start ('#' :: (body ++ c :: (rest ++ text))) := by simp
      _ = essentials (start + utf8Length ('#' :: body)) (c :: (rest ++ text)) :=
        essentials_comment hbody hhead
      _ = essentials (start + utf8Length ('#' :: (body ++ c :: rest))) text := by
        rw [essentials_lineEnd hend, ih, hlength]
        simp only [Nat.add_assoc]

end Region

/-- The significant tokens of a text, or the diagnostics of its faults, are read off its
essentials. -/
theorem SignificantTokens.ofSource_eq (source : String) :
    SignificantTokens.ofSource source =
      match (Region.essentials 0 source.toList).filterMap Essential.diagnostic? with
      | [] => .ok ⟨(Region.essentials 0 source.toList).filterMap Essential.token?⟩
      | problems => .error problems := by
  have hproblems (regions : List (Located Span Region)) :
      (regions.filterMap Region.essential?).filterMap Essential.diagnostic? =
        regions.filterMap Region.diagnostic? := by
    rw [List.filterMap_filterMap]
    congr 1
    funext region
    obtain ⟨⟨text, outcome⟩, place⟩ := region
    cases outcome with
    | ok token =>
      cases htrivia : token.isTrivia <;>
        simp [Region.essential?, Region.diagnostic?, Essential.diagnostic?, htrivia]
    | error fault => rfl
  have htokens (regions : List (Located Span Region)) :
      (regions.filterMap Region.essential?).filterMap Essential.token? =
        (regions.filterMap Region.token?).filter fun token => !token.value.isTrivia := by
    rw [List.filterMap_filterMap, List.filter_filterMap]
    congr 1
    funext region
    obtain ⟨⟨text, outcome⟩, place⟩ := region
    cases outcome with
    | ok token =>
      cases htrivia : token.isTrivia <;>
        simp [Region.essential?, Region.token?, Essential.token?, htrivia, Option.filter]
    | error fault => rfl
  rw [SignificantTokens.ofSource, Token.scan, Region.essentials, hproblems, htokens]
  cases (Region.locate 0 (Region.cut source.toList)).filterMap Region.diagnostic? with
  | nil => rfl
  | cons problem problems => rfl

/-- What is read of a text without faults are the significant ones of its tokens. -/
theorem SignificantTokens.ofSource_eq_ok_iff {source : String}
    {significant : SignificantTokens} :
    ofSource source = .ok significant ↔ ∃ tokens, Token.scan source = .ok tokens ∧
      tokens.filter (fun token => !token.value.isTrivia) = significant.tokens := by
  rw [ofSource]
  cases Token.scan source with
  | error problems => simp
  | ok tokens =>
    constructor
    · intro h
      cases h
      exact ⟨tokens, rfl, rfl⟩
    · intro h
      obtain ⟨_, hok, htokens⟩ := h
      cases hok
      exact congrArg (fun tokens => Except.ok (SignificantTokens.mk tokens)) htokens

end SdlGraph
