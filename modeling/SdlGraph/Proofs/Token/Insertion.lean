import SdlGraph.Proofs.Token.Essentials

/-!
# Trivia between tokens

Whether a piece of text is a lexeme depends on no more of what follows it than the first character,
and a significant lexeme stays one if trivia follows it instead. So trivia put between two tokens of
a text moves the essentials behind it and keeps all others. It need not be cut into tokens as it is
by itself: behind a comment it belongs to the comment up to its first line break, blanks join
blanks, and a carriage return joins a line feed.
-/

namespace SdlGraph

namespace Span

/-- A span moved towards the end of its text. -/
def shift (length : Nat) (span : Span) : Span :=
  ⟨span.start + length, span.stop + length, Nat.add_le_add_right span.start_le_stop length⟩

/-- A span of a text into which bytes are put at an offset: if it starts there or later, it makes
room for them. -/
def makeRoom (offset length : Nat) (span : Span) : Span :=
  if offset ≤ span.start then span.shift length else span

theorem between_shift (start stop length : Nat) :
    between (start + length) (stop + length) = (between start stop).shift length := by
  simp [between, shift, Nat.add_max_add_right]

end Span

/-- No token lies across an offset of its text: the offset is the start or the end of the text, or
it stands between two tokens. -/
def Token.Between (tokens : List (Located Span Token)) (offset : Nat) : Prop :=
  ∀ token ∈ tokens, token.place.stop ≤ offset ∨ offset ≤ token.place.start

/-- The characters that trivia can start with. -/
def triviaStarts : List Char := [' ', '\t', '\ufeff', ',', '\n', '\r', '#']

theorem Trivia.head? {trivia : List Char} (h : Trivia trivia) :
    ∀ c ∈ trivia.head?, c ∈ triviaStarts := by
  intro c hc
  cases h with
  | nil => cases hc
  | blank hblank _ =>
    cases hc
    have hcases : (c = ' ' ∨ c = '\t') ∨ c = '\ufeff' := by
      simpa [Reading.isBlankChar] using hblank
    rcases hcases with (rfl | rfl) | rfl <;> decide
  | comma _ =>
    cases hc
    decide
  | lineEnd hend _ =>
    cases hc
    have hcases : c = '\n' ∨ c = '\r' := by simpa [QuotedString.isLineEnd] using hend
    rcases hcases with rfl | rfl <;> decide
  | comment _ _ _ =>
    cases hc
    decide

theorem Trivia.of_blanks {blanks : List Char}
    (h : ∀ c ∈ blanks, Reading.isBlankChar c = true) : Trivia blanks := by
  induction blanks with
  | nil => exact .nil
  | cons c blanks ih =>
    obtain ⟨hblank, hrest⟩ := List.forall_mem_cons.mp h
    exact .blank hblank (ih hrest)

/-- The first line of a text and its end stand before trivia. -/
def LineBeforeTrivia (text : List Char) : Prop :=
  ∃ line c more, text = line ++ c :: more ∧ (∀ d ∈ line, QuotedString.isLineEnd d = false) ∧
    QuotedString.isLineEnd c = true ∧ Trivia more

theorem LineBeforeTrivia.cons {c : Char} {text : List Char} (h : LineBeforeTrivia text)
    (hc : QuotedString.isLineEnd c = false) : LineBeforeTrivia (c :: text) := by
  obtain ⟨line, e, more, rfl, hline, hend, hmore⟩ := h
  exact ⟨c :: line, e, more, rfl, List.forall_mem_cons.mpr ⟨hc, hline⟩, hend, hmore⟩

/-- Trivia has no end of a line in it, or is trivia again after the first. -/
theorem Trivia.firstLine {trivia : List Char} (h : Trivia trivia) :
    (∀ d ∈ trivia, QuotedString.isLineEnd d = false) ∨ LineBeforeTrivia trivia := by
  induction h with
  | nil => exact .inl fun d hd => absurd hd List.not_mem_nil
  | @blank c _ hblank _ ih =>
    have hcases : (c = ' ' ∨ c = '\t') ∨ c = '\ufeff' := by
      simpa [Reading.isBlankChar] using hblank
    have hc : QuotedString.isLineEnd c = false := by
      rcases hcases with (rfl | rfl) | rfl <;> decide
    exact ih.imp (fun hnone => List.forall_mem_cons.mpr ⟨hc, hnone⟩) fun hline => hline.cons hc
  | comma _ ih =>
    exact ih.imp (fun hnone => List.forall_mem_cons.mpr ⟨rfl, hnone⟩) fun hline => hline.cons rfl
  | lineEnd hend hrest _ =>
    exact .inr ⟨[], _, _, rfl, fun d hd => absurd hd List.not_mem_nil, hend, hrest⟩
  | @comment body rest c hbody hend hrest _ =>
    exact .inr ⟨'#' :: body, c, rest, rfl, List.forall_mem_cons.mpr ⟨rfl, hbody⟩, hend, hrest⟩

/-- One text can stand for another after a significant token: it starts with the same character, or
with trivia. -/
def MayReplace (rest' rest : List Char) : Prop :=
  rest'.head? = rest.head? ∨ ∀ c ∈ rest'.head?, c ∈ triviaStarts

theorem StartsOutside.replace {p : Char → Bool} {rest rest' : List Char}
    (h : StartsOutside p rest) (hreplace : MayReplace rest' rest)
    (hp : triviaStarts.any p = false) : StartsOutside p rest' := by
  rcases hreplace with hhead | hstart
  · intro c hc
    exact h c (hhead ▸ hc)
  · exact fun c hc => Bool.eq_false_iff.mpr (List.any_eq_false.mp hp c (hstart c hc))

namespace BlockString

variable {body rest rest' : List Char}

/-- What stands within the first part of a text does not depend on the second. -/
theorem prefix_drop_append_iff {piece front : List Char} {i : Nat}
    (h : i + piece.length ≤ front.length) :
    piece <+: (front ++ rest).drop i ↔ piece <+: front.drop i := by
  have htake : ((front ++ rest).drop i).take piece.length =
      (front.drop i).take piece.length := by
    rw [List.take_drop, List.take_drop, List.take_append_of_le_length h]
  rw [List.prefix_iff_eq_take, List.prefix_iff_eq_take, htake]

/-- Whether quotes close a block string is settled with the last of them. -/
theorem closesAt_append_iff {front : List Char} {i : Nat} (h : i + 3 ≤ front.length) :
    ClosesAt (front ++ rest) i ↔ ClosesAt front i := by
  have hquotes : quotes <+: (front ++ rest).drop i ↔ quotes <+: front.drop i :=
    prefix_drop_append_iff h
  have hescape (j : Nat) (hj : j < i) :
      '\\' :: quotes <+: (front ++ rest).drop j ↔ '\\' :: quotes <+: front.drop j := by
    refine prefix_drop_append_iff ?_
    have hlength : ('\\' :: quotes).length = 4 := rfl
    omega
  rw [ClosesAt, ClosesAt, hquotes]
  refine and_congr_right fun _ => forall_congr' fun j => forall_congr' fun hj => ?_
  rw [hescape j hj]

/-- A block string closes where it does whatever follows it. -/
theorem firstClosesAt_append (h : FirstClosesAt (body ++ quotes ++ rest) body.length) :
    FirstClosesAt (body ++ quotes ++ rest') body.length := by
  have hlength : (body ++ quotes).length = body.length + 3 := List.length_append
  have hsame (i : Nat) (hi : i ≤ body.length) :
      ClosesAt (body ++ quotes ++ rest') i ↔ ClosesAt (body ++ quotes ++ rest) i := by
    have hbound : i + 3 ≤ (body ++ quotes).length := by omega
    rw [closesAt_append_iff hbound, closesAt_append_iff hbound]
  refine ⟨(hsame _ (Nat.le_refl _)).mpr h.1, fun j hj hcloses => ?_⟩
  exact h.2 j hj ((hsame j (Nat.le_of_lt hj)).mp hcloses)

end BlockString

namespace Lexeme

variable {token : Token} {piece rest rest' : List Char}

/-- No three quotes start at a quoted string if none did before another rest. -/
theorem not_quotes_replace {body : List Char}
    (h : ¬BlockString.quotes <+: '"' :: (body ++ '"' :: rest)) (hreplace : MayReplace rest' rest) :
    ¬BlockString.quotes <+: '"' :: (body ++ '"' :: rest') := by
  intro hquotes
  cases body with
  | nil =>
    have hhead : rest'.head? = some '"' := by
      obtain ⟨after, hafter⟩ := hquotes
      have htail : '"' :: after = rest' := (List.cons.inj (List.cons.inj hafter).2).2
      rw [← htail]
      rfl
    rcases hreplace with hsame | hstart
    · obtain ⟨after, rfl⟩ := List.head?_eq_some_iff.mp (hsame.symm.trans hhead)
      exact h (List.prefix_append BlockString.quotes after)
    · exact absurd (hstart '"' hhead) (by decide)
  | cons c body =>
    have hsplit (after : List Char) : '"' :: (c :: body ++ '"' :: after) =
        '"' :: (c :: body ++ ['"']) ++ after := by simp
    have hlength : BlockString.quotes.length ≤ ('"' :: (c :: body ++ ['"'])).length := by
      simp [BlockString.quotes]
    rw [hsplit] at h hquotes
    have hinside : BlockString.quotes <+: '"' :: (c :: body ++ ['"']) :=
      List.prefix_of_prefix_length_le hquotes (List.prefix_append _ _) hlength
    exact h (hinside.trans (List.prefix_append _ _))

/-- A lexeme stays one before another rest that starts with the same character. -/
theorem of_head? (h : Lexeme token piece rest) (hhead : rest'.head? = rest.head?) :
    Lexeme token piece rest' := by
  have houtside {p : Char → Bool} (hp : StartsOutside p rest) : StartsOutside p rest' :=
    fun c hc => hp c (hhead ▸ hc)
  cases h with
  | name hfirst hmore hrest => exact .name hfirst hmore (houtside hrest)
  | intValue h hrest => exact .intValue h (houtside hrest)
  | floatValue h hrest => exact .floatValue h (houtside hrest)
  | stringValue h hquotes => exact .stringValue h (not_quotes_replace hquotes (.inl hhead))
  | blockString h => exact .blockString (BlockString.firstClosesAt_append h)
  | comment hbody hrest => exact .comment hbody fun c hc => hrest c (hhead ▸ hc)
  | punctuator mark => exact .punctuator mark
  | comma => exact .comma
  | lineFeed => exact .lineFeed
  | returnFeed => exact .returnFeed
  | carriageReturn hrest => exact .carriageReturn (houtside hrest)
  | blanks hpiece hrest => exact .blanks hpiece (houtside hrest)

/-- A significant lexeme stays one before trivia. -/
theorem before_trivia (h : Lexeme token piece rest) (hsignificant : token.isTrivia = false)
    (hstart : ∀ c ∈ rest'.head?, c ∈ triviaStarts) : Lexeme token piece rest' := by
  have hreplace : MayReplace rest' rest := .inr hstart
  cases h with
  | name hfirst hmore hrest => exact .name hfirst hmore (hrest.replace hreplace rfl)
  | intValue h hrest => exact .intValue h (hrest.replace hreplace rfl)
  | floatValue h hrest => exact .floatValue h (hrest.replace hreplace rfl)
  | stringValue h hquotes => exact .stringValue h (not_quotes_replace hquotes hreplace)
  | blockString h => exact .blockString (BlockString.firstClosesAt_append h)
  | punctuator mark => exact .punctuator mark
  | comment _ _ => cases hsignificant
  | comma => cases hsignificant
  | lineFeed => cases hsignificant
  | returnFeed => cases hsignificant
  | carriageReturn _ => cases hsignificant
  | blanks _ _ => cases hsignificant

/-- A lexeme of trivia is trivia by itself, unless it is a comment, which leaves the end of its line
to what follows. -/
theorem trivia_or_comment (h : Lexeme token piece rest) (htrivia : token.isTrivia = true) :
    Trivia piece ∨ ∃ body, piece = '#' :: body ∧
      (∀ d ∈ body, QuotedString.isLineEnd d = false) ∧
      ∀ d ∈ rest.head?, QuotedString.isLineEnd d = true := by
  cases h with
  | @comment body _ hbody hrest =>
    refine .inr ⟨body, rfl, fun d hd => ?_, fun d hd => ?_⟩
    · simp [QuotedString.isLineEnd, hbody d hd]
    · simpa [QuotedString.isLineEnd] using hrest d hd
  | comma => exact .inl (.comma .nil)
  | lineFeed => exact .inl (.lineEnd rfl .nil)
  | returnFeed => exact .inl (.lineEnd rfl (.lineEnd rfl .nil))
  | carriageReturn _ => exact .inl (.lineEnd rfl .nil)
  | blanks hpiece _ => exact .inl (Trivia.of_blanks hpiece)
  | name _ _ _ => cases htrivia
  | intValue _ _ => cases htrivia
  | floatValue _ _ => cases htrivia
  | stringValue _ _ => cases htrivia
  | blockString _ => cases htrivia
  | punctuator _ => cases htrivia

/-- The significant tokens among lexemes, the first of which starts at byte `start`. -/
def significant (start : Nat) (split : List (Token × List Char)) : List (Located Span Token) :=
  (locate start split).filter fun token => !token.value.isTrivia

theorem significant_cons (start : Nat) (lexeme : Token × List Char)
    (split : List (Token × List Char)) :
    significant start (lexeme :: split) =
      significant start [lexeme] ++ significant (start + utf8Length lexeme.2) split := by
  rw [significant, significant, significant, ← List.filter_append]
  rfl

theorem significant_append (start : Nat) (front back : List (Token × List Char)) :
    significant start (front ++ back) = significant start front ++
      significant (start + utf8Length (front.flatMap Prod.snd)) back := by
  induction front generalizing start with
  | nil => rfl
  | cons lexeme front ih =>
    rw [List.cons_append, significant_cons start lexeme, significant_cons start lexeme front, ih,
      List.flatMap_cons, utf8Length_append, List.append_assoc, Nat.add_assoc]

theorem significant_shift (split : List (Token × List Char)) (start length : Nat) :
    significant (start + length) split =
      (significant start split).map (Located.mapPlace (Span.shift length)) := by
  induction split generalizing start with
  | nil => rfl
  | cons lexeme split ih =>
    obtain ⟨token, piece⟩ := lexeme
    have hplace : Span.between (start + length) (start + length + utf8Length piece) =
        (Span.between start (start + utf8Length piece)).shift length := by
      rw [← Span.between_shift, Nat.add_right_comm]
    have hfirst : significant (start + length) [(token, piece)] =
        (significant start [(token, piece)]).map (Located.mapPlace (Span.shift length)) := by
      cases htrivia : token.isTrivia <;>
        simp [significant, locate, htrivia, Located.mapPlace, hplace]
    rw [significant_cons (start + length), significant_cons start (token, piece), List.map_append,
      hfirst, Nat.add_right_comm, ih]

theorem le_start_significant (split : List (Token × List Char)) (start : Nat) :
    ∀ token ∈ significant start split, start ≤ token.place.start := by
  induction split generalizing start with
  | nil => exact fun token ht => absurd ht List.not_mem_nil
  | cons lexeme split ih =>
    intro token ht
    rw [significant_cons, List.mem_append] at ht
    rcases ht with hfirst | hrest
    · have hmem : token ∈ locate start [lexeme] := List.mem_of_mem_filter hfirst
      obtain rfl := List.mem_singleton.mp hmem
      exact Nat.le_refl start
    · have hlater := ih (start + utf8Length lexeme.2) token hrest
      omega

/-- The first tokens of a text start before its other lexemes. -/
theorem Splits.significant_start_lt {text : List Char} {front back : List (Token × List Char)}
    (h : Splits text (front ++ back)) (start : Nat) :
    ∀ token ∈ significant start front,
      token.place.start < start + utf8Length (front.flatMap Prod.snd) := by
  induction front generalizing start text with
  | nil => exact fun token ht => absurd ht List.not_mem_nil
  | cons lexeme front ih =>
    cases h with
    | @cons token piece rest _ hfirst hrest =>
      have hpos := utf8Length_pos hfirst.ne_nil
      intro found hfound
      rw [List.flatMap_cons, utf8Length_append]
      rw [significant_cons, List.mem_append] at hfound
      rcases hfound with hhere | hlater
      · have hmem : found ∈ locate start [(token, piece)] := List.mem_of_mem_filter hhere
        obtain rfl := List.mem_singleton.mp hmem
        show start < start + (utf8Length piece + utf8Length (front.flatMap Prod.snd))
        omega
      · have hlt := ih hrest (start + utf8Length piece) found hlater
        simp only
        omega

/-- Room between two lexemes is made by the tokens behind them. -/
theorem Splits.significant_makeRoom {text : List Char} {front back : List (Token × List Char)}
    (h : Splits text (front ++ back)) (length : Nat) :
    (significant 0 (front ++ back)).map
        (Located.mapPlace (Span.makeRoom (utf8Length (front.flatMap Prod.snd)) length)) =
      significant 0 front ++ significant (utf8Length (front.flatMap Prod.snd) + length) back := by
  have hfront : (significant 0 front).map
      (Located.mapPlace (Span.makeRoom (utf8Length (front.flatMap Prod.snd)) length)) =
      significant 0 front := by
    refine (List.map_congr_left fun token ht => ?_).trans (List.map_id _)
    have hlt := h.significant_start_lt 0 token ht
    rw [Nat.zero_add] at hlt
    rw [Located.mapPlace, Span.makeRoom, if_neg (Nat.not_le_of_lt hlt), id]
  have hback : (significant (utf8Length (front.flatMap Prod.snd)) back).map
      (Located.mapPlace (Span.makeRoom (utf8Length (front.flatMap Prod.snd)) length)) =
      significant (utf8Length (front.flatMap Prod.snd) + length) back := by
    rw [significant_shift]
    refine List.map_congr_left fun token ht => ?_
    have hle := le_start_significant back _ token ht
    rw [Located.mapPlace, Located.mapPlace, Span.makeRoom, if_pos hle]
  rw [significant_append, Nat.zero_add, List.map_append, hfront, hback]

end Lexeme

namespace Essential

/-- A significant token as an essential. -/
def ofToken (token : Located Span Token) : Located Span Essential :=
  ⟨.ok token.value, token.place⟩

theorem filterMap_token?_ofToken (tokens : List (Located Span Token)) :
    (tokens.map ofToken).filterMap token? = tokens := by
  rw [List.filterMap_map]
  exact List.filterMap_some

theorem filterMap_diagnostic?_ofToken (tokens : List (Located Span Token)) :
    (tokens.map ofToken).filterMap diagnostic? = [] := by
  rw [List.filterMap_map]
  exact List.filterMap_eq_nil_iff.mpr fun _ _ => rfl

end Essential

open Lexeme (significant)

namespace Region

variable {start : Nat} {token : Token} {piece trivia rest : List Char}

/-- Trivia behind a comment is skipped as well. It lengthens the comment up to the first end of a
line in it. -/
theorem essentials_comment_trivia {body : List Char}
    (hbody : ∀ d ∈ body, QuotedString.isLineEnd d = false)
    (hrest : ∀ d ∈ rest.head?, QuotedString.isLineEnd d = true) (htrivia : Trivia trivia) :
    essentials start ('#' :: (body ++ (trivia ++ rest))) =
      essentials (start + utf8Length ('#' :: body) + utf8Length trivia) rest := by
  rcases htrivia.firstLine with hnone | ⟨line, c, more, rfl, hline, hend, hmore⟩
  · have hlonger : ∀ d ∈ body ++ trivia, QuotedString.isLineEnd d = false :=
      List.forall_mem_append.mpr ⟨hbody, hnone⟩
    rw [← List.append_assoc, essentials_comment hlonger hrest, ← List.cons_append,
      utf8Length_append, Nat.add_assoc]
  · have hlonger : ∀ d ∈ body ++ line, QuotedString.isLineEnd d = false :=
      List.forall_mem_append.mpr ⟨hbody, hline⟩
    have hhead : ∀ d ∈ (c :: (more ++ rest)).head?, QuotedString.isLineEnd d = true := by
      intro d hd
      obtain rfl : c = d := Option.some.inj hd
      exact hend
    calc essentials start ('#' :: (body ++ (line ++ c :: more ++ rest)))
      _ = essentials start ('#' :: (body ++ line ++ c :: (more ++ rest))) := by simp
      _ = essentials (start + utf8Length ('#' :: (body ++ line))) (c :: (more ++ rest)) :=
        essentials_comment hlonger hhead
      _ = essentials (start + utf8Length ('#' :: body) + utf8Length (line ++ c :: more)) rest := by
        rw [essentials_lineEnd hend, essentials_trivia hmore, ← List.cons_append,
          utf8Length_append, utf8Length_append, utf8Length.eq_2 c]
        simp only [Nat.add_assoc]

/-- The first lexeme of a text is an essential if it is significant. -/
theorem essentials_piece (h : Lexeme token piece rest) :
    essentials start (piece ++ rest) = (significant start [(token, piece)]).map Essential.ofToken ++
      essentials (start + utf8Length piece) rest := by
  obtain ⟨c, more, rfl, hread⟩ := Reading.ofText_of_lexeme h
  rw [List.cons_append, essentials_append hread, essential?]
  cases htrivia : token.isTrivia <;>
    simp [significant, Lexeme.locate, htrivia, Essential.ofToken]

/-- Trivia behind the first lexeme of a text moves the essentials of the rest. -/
theorem essentials_piece_trivia (h : Lexeme token piece rest) (htrivia : Trivia trivia) :
    essentials start (piece ++ (trivia ++ rest)) =
      (significant start [(token, piece)]).map Essential.ofToken ++
        essentials (start + utf8Length piece + utf8Length trivia) rest := by
  cases hsignificant : token.isTrivia with
  | false =>
    have hlexeme : Lexeme token piece (trivia ++ rest) := by
      cases trivia with
      | nil => exact h
      | cons c trivia => exact h.before_trivia hsignificant htrivia.head?
    rw [essentials_piece hlexeme, essentials_trivia htrivia]
  | true =>
    have hnone : significant start [(token, piece)] = [] := by
      simp [significant, Lexeme.locate, hsignificant]
    rw [hnone, List.map_nil, List.nil_append]
    rcases h.trivia_or_comment hsignificant with hpiece | ⟨body, rfl, hbody, hrest⟩
    · rw [essentials_trivia hpiece, essentials_trivia htrivia]
    · exact essentials_comment_trivia hbody hrest htrivia

end Region

namespace Lexeme

open Region (essentials)

variable {token : Token} {text piece trivia rest : List Char}
  {front back split : List (Token × List Char)} {start : Nat}

/-- The first lexeme of a text stands before the others. -/
theorem Splits.of_cons (h : Splits (piece ++ rest) ((token, piece) :: split)) :
    Lexeme token piece rest ∧ Splits rest split := by
  generalize htext : piece ++ rest = text at h
  cases h with
  | cons hfirst hrest =>
    obtain rfl := List.append_cancel_left htext
    exact ⟨hfirst, hrest⟩

/-- Trivia put between two lexemes of a text leaves the essentials before it and moves those behind
it. -/
theorem Splits.essentials_insert (h : Splits (front.flatMap Prod.snd ++ rest) (front ++ back))
    (htrivia : Trivia trivia) :
    essentials start (front.flatMap Prod.snd ++ (trivia ++ rest)) =
      (significant start front).map Essential.ofToken ++
        essentials (start + utf8Length (front.flatMap Prod.snd) + utf8Length trivia) rest := by
  induction front generalizing start with
  | nil => exact Region.essentials_trivia htrivia
  | cons lexeme front ih =>
    obtain ⟨token, piece⟩ := lexeme
    rw [List.flatMap_cons, List.append_assoc] at h ⊢
    obtain ⟨hfirst, hrest⟩ := h.of_cons
    cases front with
    | nil =>
      rw [List.flatMap_nil, List.nil_append, List.append_nil]
      exact Region.essentials_piece_trivia hfirst htrivia
    | cons next front =>
      have hhead : ((next :: front).flatMap Prod.snd ++ (trivia ++ rest)).head? =
          ((next :: front).flatMap Prod.snd ++ rest).head? := by
        obtain ⟨hnext, -⟩ := Splits.of_cons (by
          rw [List.flatMap_cons, List.append_assoc] at hrest
          exact hrest)
        obtain ⟨c, more, hpiece, -⟩ := Reading.ofText_of_lexeme hnext
        rw [List.flatMap_cons, hpiece]
        rfl
      rw [Region.essentials_piece (hfirst.of_head? hhead), ih hrest, utf8Length_append,
        significant_cons start (token, piece) (next :: front), List.map_append, List.append_assoc]
      simp only [Nat.add_assoc]

/-- The essentials of a text without faults are its significant tokens. -/
theorem Splits.essentials_eq (h : Splits text split) :
    essentials start text = (significant start split).map Essential.ofToken := by
  induction h generalizing start with
  | nil => exact Region.essentials_nil
  | @cons token piece rest split hfirst _ ih =>
    rw [Region.essentials_piece hfirst, ih, significant_cons start (token, piece) split,
      List.map_append]

/-- A place that no token of a text lies across is between two lexemes, or at an end. -/
theorem Splits.exists_append {before : List Char} (h : Splits text split)
    (htext : text = before ++ rest)
    (hplace : ∀ token ∈ locate start split, token.place.stop ≤ start + utf8Length before ∨
      start + utf8Length before ≤ token.place.start) :
    ∃ front back, split = front ++ back ∧ before = front.flatMap Prod.snd ∧ Splits rest back := by
  induction h generalizing start before with
  | nil =>
    obtain ⟨rfl, rfl⟩ := List.append_eq_nil_iff.mp htext.symm
    exact ⟨[], [], rfl, rfl, .nil⟩
  | @cons token piece text split hfirst hrest ih =>
    cases before with
    | nil =>
      obtain rfl : piece ++ text = rest := htext
      exact ⟨[], _, rfl, rfl, .cons hfirst hrest⟩
    | cons c before =>
      have hpos : 0 < c.utf8Size := c.utf8Size_pos
      obtain ⟨hhere, hlater⟩ := List.forall_mem_cons.mp hplace
      rw [Span.stop_between] at hhere
      have hle : utf8Length piece ≤ utf8Length (c :: before) := by
        simp only [Span.between, utf8Length] at hhere ⊢
        omega
      have hprefix : piece <+: c :: before := by
        rcases List.prefix_or_prefix_of_prefix (List.prefix_append piece text)
          (htext ▸ List.prefix_append (c :: before) rest) with hpiece | ⟨gap, hgap⟩
        · exact hpiece
        · have hnone : gap = [] := by
            cases gap with
            | nil => rfl
            | cons d gap =>
              have hgapPos : 0 < d.utf8Size := d.utf8Size_pos
              rw [← hgap, utf8Length_append, utf8Length.eq_2 d] at hle
              omega
          rw [hnone, List.append_nil] at hgap
          rw [hgap]
      obtain ⟨gap, hgap⟩ := hprefix
      rw [← hgap, List.append_assoc] at htext
      have hstart : start + utf8Length (c :: before) =
          start + utf8Length piece + utf8Length gap := by
        rw [← hgap, utf8Length_append, Nat.add_assoc]
      rw [hstart] at hlater
      obtain ⟨front, back, rfl, hfront, hback⟩ := ih (List.append_cancel_left htext) hlater
      refine ⟨(token, piece) :: front, back, rfl, ?_, hback⟩
      rw [List.flatMap_cons, ← hfront, hgap]

/-- Trivia put between two lexemes of a text without faults leaves it without faults. The
significant tokens behind it move by its length. -/
theorem Splits.ofSource_insert {before trivia after : String}
    (h : Splits (before.toList ++ after.toList) (front ++ back))
    (hfront : before.toList = front.flatMap Prod.snd) (hback : Splits after.toList back)
    (htrivia : Trivia trivia.toList) :
    SignificantTokens.ofSource (before ++ trivia ++ after) =
      .ok ⟨(significant 0 (front ++ back)).map
        (Located.mapPlace (Span.makeRoom before.utf8ByteSize trivia.utf8ByteSize))⟩ := by
  have hbytes (text : String) : text.utf8ByteSize = utf8Length text.toList := by
    rw [← utf8ByteSize_ofList, String.ofList_toList]
  have hessentials : essentials 0 (before ++ trivia ++ after).toList =
      ((significant 0 (front ++ back)).map
        (Located.mapPlace (Span.makeRoom before.utf8ByteSize trivia.utf8ByteSize))).map
        Essential.ofToken := by
    rw [hfront] at h
    rw [hbytes, hbytes, hfront, h.significant_makeRoom, List.map_append, ← hback.essentials_eq,
      String.toList_append, String.toList_append, List.append_assoc, hfront,
      h.essentials_insert htrivia, Nat.zero_add]
  rw [SignificantTokens.ofSource_eq, hessentials, Essential.filterMap_diagnostic?_ofToken,
    Essential.filterMap_token?_ofToken]

end Lexeme

end SdlGraph
