import SdlGraph.Proofs.Catalog.Outcome
import SdlGraph.Proofs.Document.Faithful
import SdlGraph.Proofs.Document.Parts

/-!
# Written constants read back

The written form of a constant is schema text again. Each of its words, numbers and strings is one
token before anything that may follow a constant there, and every character of a string is written
so that reading gives it back. So the tokens of the written form are a spelling of the constant, and
reading these gives the constant and nothing else. No two constants are written alike.
-/

namespace SdlGraph

open Spelling

namespace Region

variable {token : Token} {piece text rest : List Char}

/-- A significant lexeme is the first of the contents of its text. -/
theorem contents_lexeme (h : Lexeme token piece rest) (hsignificant : token.isTrivia = false) :
    contents (piece ++ rest) = .ok token :: contents rest := by
  obtain ⟨c, more, rfl, hread⟩ := Reading.ofText_of_lexeme h
  rw [List.cons_append, contents_cons, hread]
  simp [Essential.kind, Except.mapError, kept?, hsignificant]

theorem contents_mark (mark : Punctuator) :
    contents (mark.text.toList ++ rest) = .ok (.punctuator mark) :: contents rest :=
  contents_lexeme (.punctuator mark) rfl

theorem contents_comma : contents (',' :: text) = contents text := by
  rw [← map_kind_essentials 0, essentials_comma, map_kind_essentials]

theorem contents_blank {c : Char} (hblank : Reading.isBlankChar c = true) :
    contents (c :: text) = contents text := by
  rw [← map_kind_essentials 0, essentials_blank hblank, map_kind_essentials]

end Region

namespace Value

/-- What may follow a constant inside the written form of another one. -/
def Ends (rest : List Char) : Prop := ∀ c ∈ rest.head?, c ∈ [',', ']', '\x7d']

theorem Ends.outside {rest : List Char} {p : Char → Bool} (h : Ends rest)
    (hp : [',', ']', '\x7d'].any p = false) : StartsOutside p rest :=
  fun c hc => Bool.eq_false_iff.mpr (List.any_eq_false.mp hp c (h c hc))

/-- Before anything that may follow a constant, a text is read as one of some token lists. -/
def Rendered (text : List Char) (spelling : Language Token) : Prop :=
  ∀ rest, Ends rest →
    ∃ ts ∈ spelling, Region.contents (text ++ rest) = ts.map .ok ++ Region.contents rest

/-- A single token is read as itself. -/
theorem Rendered.of_lexeme {text : List Char} {token : Token} {spelling : Language Token}
    (hlexeme : ∀ rest, Ends rest → Lexeme token text rest) (hsignificant : token.isTrivia = false)
    (hmem : [token] ∈ spelling) : Rendered text spelling := by
  intro rest hrest
  exact ⟨[token], hmem, Region.contents_lexeme (hlexeme rest hrest) hsignificant⟩

/-- A token that some text has. -/
def Occurs (token : Token) : Prop := ∃ piece rest, Lexeme token piece rest

/-- All tokens of some spelling of a constant are found in texts. -/
def Legible (value : Value) : Prop := ∃ ts ∈ value.spelling, ∀ token ∈ ts, Occurs token

/-- A word stands as itself before everything that does not go on with it. -/
theorem lexeme_of_occurs_name {name : String} (h : Occurs (.name name)) {rest : List Char}
    (hrest : StartsOutside Reading.isNameChar rest) :
    Lexeme (.name name) name.toList rest := by
  obtain ⟨piece, other, hlexeme⟩ := h
  cases hlexeme with
  | name hfirst hmore _ =>
    rw [String.toList_ofList]
    exact .name hfirst hmore hrest

theorem rendered_int {text : String} (h : Occurs (.intValue text)) :
    Rendered text.toList (int text).spelling := by
  obtain ⟨piece, other, hlexeme⟩ := h
  cases hlexeme with
  | intValue hwritten _ =>
    rw [String.toList_ofList]
    refine .of_lexeme (fun rest hrest => .intValue hwritten ?_) rfl rfl
    exact hrest.outside rfl

theorem rendered_float {text : String} (h : Occurs (.floatValue text)) :
    Rendered text.toList (float text).spelling := by
  obtain ⟨piece, other, hlexeme⟩ := h
  cases hlexeme with
  | floatValue hwritten _ =>
    rw [String.toList_ofList]
    refine .of_lexeme (fun rest hrest => .floatValue hwritten ?_) rfl rfl
    exact hrest.outside rfl

theorem rendered_word {name : String} (h : Occurs (.name name)) :
    Rendered name.toList (word name) := by
  refine .of_lexeme (fun rest hrest => lexeme_of_occurs_name h ?_) rfl rfl
  exact hrest.outside rfl

/-- A digit that is written for a number is read as this number. -/
theorem hexDigit?_hexDigit : ∀ n < 16, Text.hexDigit? (hexDigit n) = some n := by
  decide

/-- A control is written with its number. -/
theorem names_control {c : Char} (h : isControl c = true) :
    Escape.Names ['u', '0', '0', hexDigit (c.toNat / 16), hexDigit (c.toNat % 16)] c := by
  have hbound : c.toNat < 256 := by
    simp only [isControl, Bool.or_eq_true, Bool.and_eq_true, decide_eq_true_eq] at h
    omega
  have hhigh : Text.hexDigit? (hexDigit (c.toNat / 16)) = some (c.toNat / 16) :=
    hexDigit?_hexDigit _ (by omega)
  have hlow : Text.hexDigit? (hexDigit (c.toNat % 16)) = some (c.toNat % 16) :=
    hexDigit?_hexDigit _ (by omega)
  have hzero : Text.hexDigit? '0' = some 0 := by decide
  refine .fixed rfl ?_ ?_
  · simp [Text.isHexDigit, hhigh, hlow, hzero]
  · simp only [Text.hexNumber, List.foldl_cons, List.foldl_nil, hhigh, hlow, hzero,
      Option.getD_some]
    omega

/-- A character is written so that it is read back. -/
theorem body_writeChar (c : Char) {body value : List Char} (h : QuotedString.Body body value) :
    QuotedString.Body (writeChar c ++ body) (c :: value) := by
  have hletter {letter named : Char} (hnamed : (letter, named) ∈ Escape.letters) :
      QuotedString.Body ('\\' :: ([letter] ++ body)) (named :: value) :=
    .escape (.letter hnamed) h
  unfold writeChar
  split
  next => exact hletter (by decide)
  next => exact hletter (by decide)
  next => exact hletter (by decide)
  next => exact hletter (by decide)
  next => exact hletter (by decide)
  next hquote hbackslash hfeed hreturn _ =>
    cases hcontrol : isControl c with
    | true => exact .escape (names_control hcontrol) h
    | false => exact .plain hquote hbackslash ⟨hfeed, hreturn⟩ h

theorem body_flatMap_writeChar (text : List Char) :
    QuotedString.Body (text.flatMap writeChar) text := by
  induction text with
  | nil => exact .nil
  | cons c text ih => exact body_writeChar c ih

/-- No written character starts with a quote. -/
theorem head?_writeChar (c : Char) : ∃ d more, writeChar c = d :: more ∧ d ≠ '"' := by
  unfold writeChar
  split
  next => exact ⟨_, _, rfl, by decide⟩
  next => exact ⟨_, _, rfl, by decide⟩
  next => exact ⟨_, _, rfl, by decide⟩
  next => exact ⟨_, _, rfl, by decide⟩
  next => exact ⟨_, _, rfl, by decide⟩
  next hquote _ _ _ _ =>
    cases isControl c with
    | true => exact ⟨_, _, rfl, by decide⟩
    | false => exact ⟨_, _, rfl, hquote⟩

/-- No three quotes stand at the start of a written string. -/
theorem not_quotes_writeString {text rest : List Char} (hrest : Ends rest) :
    ¬BlockString.quotes <+: '"' :: (text.flatMap writeChar ++ '"' :: rest) := by
  rintro ⟨after, hafter⟩
  have htail : '"' :: '"' :: after = text.flatMap writeChar ++ '"' :: rest :=
    (List.cons.inj hafter).2
  cases text with
  | nil =>
    obtain rfl : '"' :: after = rest := (List.cons.inj htail).2
    exact absurd (hrest '"' rfl) (by decide)
  | cons c text =>
    obtain ⟨d, more, hwritten, hd⟩ := head?_writeChar c
    rw [List.flatMap_cons, hwritten] at htail
    exact hd (List.cons.inj htail).1.symm

/-- A written string is one token. -/
theorem rendered_string (text : String) :
    Rendered (writeString text).toList (Spelling.text text) := by
  rw [writeString, String.toList_ofList]
  refine .of_lexeme (fun rest hrest => ?_) rfl (mem_text.mpr (.inl rfl))
  have hlexeme : Lexeme (.stringValue (String.ofList text.toList))
      ('"' :: (text.toList.flatMap writeChar ++ ['"'])) rest :=
    .stringValue (body_flatMap_writeChar text.toList) (not_quotes_writeString hrest)
  rwa [String.ofList_toList] at hlexeme

/-- The written forms of the items of a list, with commas between them. -/
theorem Rendered.intercalate {α : Type} {written : α → List Char} {spelling : α → Language Token}
    {items : List α} (h : ∀ item ∈ items, Rendered (written item) (spelling item)) :
    Rendered ([',', ' '].intercalate (items.map written)) (each spelling items) := by
  intro rest hrest
  induction items with
  | nil => exact ⟨[], mem_each_nil.mpr rfl, rfl⟩
  | cons first items ih =>
    obtain ⟨hfirst, hitems⟩ := List.forall_mem_cons.mp h
    cases items with
    | nil =>
      obtain ⟨us, hu, hcontents⟩ := hfirst rest hrest
      refine ⟨us, mem_each_cons.mpr ⟨us, hu, [], mem_each_nil.mpr rfl, List.append_nil us⟩, ?_⟩
      rw [List.map_singleton, List.intercalate_singleton, hcontents]
    | cons next items =>
      obtain ⟨vs, hv, hlater⟩ := ih hitems
      have hends : Ends (',' :: ' ' ::
          ([',', ' '].intercalate ((next :: items).map written) ++ rest)) := by
        intro c hc
        cases hc
        decide
      obtain ⟨us, hu, hcontents⟩ := hfirst _ hends
      refine ⟨us ++ vs, mem_each_cons.mpr ⟨us, hu, vs, hv, rfl⟩, ?_⟩
      have htext : [',', ' '].intercalate ((first :: next :: items).map written) ++ rest =
          written first ++ ',' :: ' ' ::
            ([',', ' '].intercalate ((next :: items).map written) ++ rest) := by
        simp [List.intercalate_cons_cons]
      rw [htext, hcontents, Region.contents_comma, Region.contents_blank rfl, hlater,
        List.map_append, List.append_assoc]

/-- A written form between two marks. -/
theorem Rendered.enclosed {text : List Char} {spelling : Language Token} (opening : Punctuator)
    {close : Punctuator} (h : Rendered text spelling)
    (hclose : ∀ rest, Ends (close.text.toList ++ rest)) :
    Rendered (opening.text.toList ++ (text ++ close.text.toList))
      [mark opening, spelling, mark close].prod := by
  intro rest hrest
  obtain ⟨us, hu, hcontents⟩ := h _ (hclose rest)
  refine ⟨_, mem_enclosed.mpr ⟨us, hu, rfl⟩, ?_⟩
  rw [List.append_assoc, List.append_assoc, Region.contents_mark, hcontents, Region.contents_mark]
  simp

/-- An entry of an input object is written as its name, a colon and its value. -/
theorem Rendered.entry {name : String} {content : Value} (hname : Occurs (.name name))
    (h : Rendered content.render.toList content.spelling) :
    Rendered (name ++ ": " ++ content.render).toList (entrySpelling (name, content)) := by
  intro rest hrest
  obtain ⟨us, hu, hcontents⟩ := h rest hrest
  have hcolon : StartsOutside Reading.isNameChar
      (Punctuator.colon.text.toList ++ ' ' :: (content.render.toList ++ rest)) := by
    intro c hc
    obtain rfl : ':' = c := Option.some.inj hc
    decide
  have htext : (name ++ ": " ++ content.render).toList ++ rest = name.toList ++
      (Punctuator.colon.text.toList ++ ' ' :: (content.render.toList ++ rest)) := by
    simp [String.toList_append, Punctuator.text]
  refine ⟨[.name name] ++ ([.punctuator .colon] ++ us), ?_, ?_⟩
  · exact append_mem_prod rfl (append_mem_prod rfl (mem_prod_singleton.mpr hu))
  · rw [htext, Region.contents_lexeme (lexeme_of_occurs_name hname hcolon) rfl,
      Region.contents_mark, Region.contents_blank rfl, hcontents]
    rfl

/-- The parts of a spelling with tokens from texts are spelled so as well. -/
theorem exists_of_mem_each {α : Type} {item : α → Language Token} {items : List α}
    {ts : List Token} (hts : ts ∈ each item items) :
    ∀ value ∈ items, ∃ us ∈ item value, us ⊆ ts := by
  induction items generalizing ts with
  | nil => exact fun value hv => absurd hv List.not_mem_nil
  | cons first items ih =>
    obtain ⟨us, hu, vs, hv, rfl⟩ := mem_each_cons.mp hts
    refine List.forall_mem_cons.mpr ⟨⟨us, hu, List.subset_append_left us vs⟩, fun value hm => ?_⟩
    obtain ⟨ws, hw, hsub⟩ := ih hv value hm
    exact ⟨ws, hw, fun token ht => List.mem_append_right us (hsub ht)⟩

theorem legible_item {items : List Value} (h : (list items).Legible) :
    ∀ item ∈ items, item.Legible := by
  obtain ⟨ts, hts, hoccurs⟩ := h
  rw [spelling, itemsSpelling_eq_each] at hts
  obtain ⟨us, hu, rfl⟩ := mem_enclosed.mp hts
  intro item hi
  obtain ⟨vs, hv, hsub⟩ := exists_of_mem_each hu item hi
  exact ⟨vs, hv, fun token ht =>
    hoccurs token (List.mem_append_right _ (List.mem_append_left _ (hsub ht)))⟩

theorem legible_entry {entries : List (String × Value)} (h : (object entries).Legible) :
    ∀ entry ∈ entries, Occurs (.name entry.1) ∧ entry.2.Legible := by
  obtain ⟨ts, hts, hoccurs⟩ := h
  rw [spelling, entriesSpelling_eq_each] at hts
  obtain ⟨us, hu, rfl⟩ := mem_enclosed.mp hts
  intro entry he
  obtain ⟨vs, hv, hsub⟩ := exists_of_mem_each hu entry he
  have hentry : ∀ token ∈ vs, Occurs token := fun token ht =>
    hoccurs token (List.mem_append_right _ (List.mem_append_left _ (hsub ht)))
  obtain ⟨_, rfl, ws, hw, rfl⟩ := mem_prod_cons.mp hv
  obtain ⟨_, rfl, xs, hx, rfl⟩ := mem_prod_cons.mp hw
  rw [mem_prod_singleton] at hx
  refine ⟨hentry _ List.mem_cons_self, xs, hx, fun token ht => hentry token ?_⟩
  exact List.mem_append_right _ (List.mem_append_right _ ht)

/-- A reserved word is found in texts. -/
theorem occurs_reserved {name : String} (h : name ∈ reservedWords) : Occurs (.name name) := by
  have hnames : ∀ word ∈ reservedWords, word.toList.head?.any Reading.isNameStart = true ∧
      word.toList.tail.all Reading.isNameChar = true := by
    decide
  obtain ⟨hhead, hmore⟩ := hnames name h
  cases htext : name.toList with
  | nil =>
    rw [htext] at hhead
    cases hhead
  | cons first more =>
    rw [htext] at hhead hmore
    have hlexeme : Lexeme (.name (String.ofList (first :: more))) (first :: more) [] :=
      .name hhead (List.all_eq_true.mp hmore) fun c hc => absurd hc (Option.not_mem_none c)
    rw [← htext, String.ofList_toList] at hlexeme
    exact ⟨_, _, hlexeme⟩

/-- The written form of a legible constant is read as a spelling of it. -/
theorem rendered_of_legible (value : Value) (h : value.Legible) :
    Rendered value.render.toList value.spelling := by
  induction hdepth : value.depth using Nat.strongRecOn generalizing value with
  | ind depth ih =>
    subst hdepth
    obtain ⟨ts, hts, hoccurs⟩ := h
    cases value with
    | int text =>
      rw [show ts = _ from hts] at hoccurs
      exact rendered_int (hoccurs _ List.mem_cons_self)
    | float text =>
      rw [show ts = _ from hts] at hoccurs
      exact rendered_float (hoccurs _ List.mem_cons_self)
    | string text => exact rendered_string text
    | boolean truth =>
      cases truth with
      | true => exact rendered_word (occurs_reserved (by decide))
      | false => exact rendered_word (occurs_reserved (by decide))
    | null => exact rendered_word (occurs_reserved (by decide))
    | enum name =>
      rw [show ts = _ from hts] at hoccurs
      exact rendered_word (hoccurs _ List.mem_cons_self)
    | list items =>
      have hitems : ∀ item ∈ items, Rendered item.render.toList item.spelling := by
        intro item hi
        have hless : item.depth < (list items).depth :=
          Nat.lt_succ_of_le (itemsDepth_le_iff.mp (Nat.le_refl _) item hi)
        exact ih _ hless item (legible_item ⟨ts, hts, hoccurs⟩ item hi) rfl
      have htext : (list items).render.toList = Punctuator.leftBracket.text.toList ++
          ([',', ' '].intercalate (items.map fun item => item.render.toList) ++
            Punctuator.rightBracket.text.toList) := by
        rw [render, renderItems_eq_map]
        simp [String.toList_append, String.toList_intercalate, Punctuator.text,
          Function.comp_def]
      rw [htext, spelling, itemsSpelling_eq_each]
      refine (Rendered.intercalate hitems).enclosed .leftBracket fun rest c hc => ?_
      cases hc
      decide
    | object entries =>
      have hentries : ∀ entry ∈ entries,
          Rendered (entry.1 ++ ": " ++ entry.2.render).toList (entrySpelling entry) := by
        intro entry he
        obtain ⟨hname, hcontent⟩ := legible_entry ⟨ts, hts, hoccurs⟩ entry he
        have hless : entry.2.depth < (object entries).depth :=
          Nat.lt_succ_of_le (entriesDepth_le_iff.mp (Nat.le_refl _) entry he)
        exact Rendered.entry hname (ih _ hless entry.2 hcontent rfl)
      have htext : (object entries).render.toList = Punctuator.leftBrace.text.toList ++
          ([',', ' '].intercalate
            (entries.map fun entry => (entry.1 ++ ": " ++ entry.2.render).toList) ++
            Punctuator.rightBrace.text.toList) := by
        rw [render, renderEntries_eq_map]
        simp [String.toList_append, String.toList_intercalate, Punctuator.text,
          Function.comp_def]
      rw [htext, spelling, entriesSpelling_eq_each]
      refine (Rendered.intercalate hentries).enclosed .leftBrace fun rest c hc => ?_
      cases hc
      decide

/-- A constant that the reader gives at some point of the tokens of some text. -/
def Produced (value : Value) : Prop :=
  ∃ source tokens cursor place later, SignificantTokens.ofSource source = .ok tokens ∧
    cursor.rest <:+ tokens.values ∧ Parser.constant cursor = .ok (⟨value, place⟩, later)

theorem occurs_of_splits {text : List Char} {split : List (Token × List Char)}
    (h : Lexeme.Splits text split) {start : Nat} :
    ∀ token ∈ Lexeme.locate start split, Occurs token.value := by
  induction h generalizing start with
  | nil => exact fun token ht => absurd ht List.not_mem_nil
  | cons hfirst _ ih => exact List.forall_mem_cons.mpr ⟨⟨_, _, hfirst⟩, ih⟩

/-- The significant tokens of a text are found in texts. -/
theorem occurs_of_ofSource {source : String} {tokens : SignificantTokens}
    (h : SignificantTokens.ofSource source = .ok tokens) :
    ∀ token ∈ tokens.values, Occurs token := by
  obtain ⟨all, hscan, hfilter⟩ := SignificantTokens.ofSource_eq_ok_iff.mp h
  obtain ⟨split, hsplit, rfl⟩ := Lexeme.scan_eq_ok_iff.mp hscan
  intro token ht
  obtain ⟨item, hitem, rfl⟩ := List.mem_map.mp ht
  rw [← hfilter] at hitem
  exact occurs_of_splits hsplit item (List.mem_of_mem_filter hitem)

/-- What the reader gives is legible, and what the grammar asks of a constant. -/
theorem Produced.legible {value : Value} (h : value.Produced) :
    value.Legible ∧ value.Grammatical := by
  obtain ⟨source, tokens, cursor, place, later, hsource, hsuffix, hread⟩ := h
  obtain ⟨taken, ⟨hspelling, hgrammatical⟩, hrest, -⟩ :=
    Parser.takes_constant cursor ⟨value, place⟩ later hread
  have htaken : ∀ token ∈ taken, Occurs token := fun token ht =>
    occurs_of_ofSource hsource token
      (hsuffix.subset (hrest ▸ List.mem_append_left later.rest ht))
  exact ⟨⟨taken, hspelling, htaken⟩, hgrammatical⟩

/-- The written form of a constant has a spelling of the constant as its tokens, and all of it is
read as the constant. -/
theorem reads_render {value : Value} (hlegible : value.Legible) (hfine : value.Grammatical) :
    ∃ tokens place, SignificantTokens.ofSource value.render = .ok tokens ∧
      Parser.constant ⟨0, tokens.values⟩ =
        .ok (⟨value, place⟩, ⟨tokens.values.length, []⟩) := by
  have hnone : Ends [] := fun c hc => absurd hc (Option.not_mem_none c)
  obtain ⟨ts, hts, hcontents⟩ := rendered_of_legible value hlegible [] hnone
  have hnil : Region.contents [] = [] := by rw [Region.contents, Region.cut]; rfl
  rw [List.append_nil, hnil, List.append_nil] at hcontents
  obtain ⟨tokens, hsource, rfl⟩ := SignificantTokens.ofSource_of_contents hcontents
  have hreads := Parser.recovers_value nestingLimit value hfine tokens.values hts []
    HeadOutside.nil
  obtain ⟨⟨read, place⟩, hread, hvalue⟩ := hreads 0
  rw [List.append_nil, Nat.zero_add] at hread
  obtain rfl : read = value := hvalue
  exact ⟨tokens, place, hsource, hread⟩

/-- The constants that the reader gives are those that are legible and what the grammar asks for. -/
theorem produced_iff {value : Value} :
    value.Produced ↔ value.Legible ∧ value.Grammatical := by
  constructor
  · exact Produced.legible
  · rintro ⟨hlegible, hfine⟩
    obtain ⟨tokens, place, hsource, hread⟩ := reads_render hlegible hfine
    exact ⟨_, tokens, _, place, _, hsource, List.suffix_refl _, hread⟩

/-- The written form of a constant that the reader gives is cut into tokens without a fault, and
reading these takes all of them and gives the constant back. So constants that are written alike are
the same, and so are default values that have the same text in a catalog. -/
theorem constant_render {value : Value} (h : value.Produced) :
    (∃ tokens place, SignificantTokens.ofSource value.render = .ok tokens ∧
      Parser.constant ⟨0, tokens.values⟩ =
        .ok (⟨value, place⟩, ⟨tokens.values.length, []⟩)) ∧
    (∀ other : Value, other.Produced → other.render = value.render → other = value) ∧
    ∀ input input' : InputValue Extent, input.default.map (·.value) = some value →
      (∀ written ∈ input'.default, written.value.Produced) →
      input'.argumentEntry.default = input.argumentEntry.default →
      input'.default.map (·.value) = some value := by
  obtain ⟨hlegible, hfine⟩ := h.legible
  obtain ⟨tokens, place, hsource, hread⟩ := reads_render hlegible hfine
  have hinjective : ∀ other : Value, other.Produced → other.render = value.render →
      other = value := by
    intro other hother hrender
    obtain ⟨hlegible', hfine'⟩ := hother.legible
    obtain ⟨tokens', place', hsource', hread'⟩ := reads_render hlegible' hfine'
    rw [hrender, hsource] at hsource'
    cases hsource'
    rw [hread] at hread'
    cases hread'
    rfl
  refine ⟨⟨tokens, place, hsource, hread⟩, hinjective, ?_⟩
  intro input input' hdefault hproduced htext
  obtain ⟨written, hwritten, rfl⟩ := Option.map_eq_some_iff.mp hdefault
  rw [InputValue.argumentEntry, InputValue.argumentEntry, hwritten] at htext
  obtain ⟨written', hwritten', hrender⟩ := Option.map_eq_some_iff.mp htext
  rw [hwritten', Option.map_some, hinjective written'.value (hproduced written' hwritten') hrender]

/-- Escapes, equal names, a number as it was written and empty parts. -/
theorem constant_render_nested :
    ∃ value : Value, value.Produced ∧
      value.render = "[\"\\u0007\\\"é\", \x7ba: -1.50E+3, a: \"\"\x7d, [], null]" ∧
      ∃ tokens place, SignificantTokens.ofSource value.render = .ok tokens ∧
        Parser.constant ⟨0, tokens.values⟩ =
          .ok (⟨value, place⟩, ⟨tokens.values.length, []⟩) := by
  let source := "[\"\\u\x7b7\x7d\\\"é\"\x7ba:-1.50E+3,a:\"\"\"\"\"\"\x7d[]null]#"
  have hsome : (SignificantTokens.ofSource source).isOk = true := by decide +kernel
  obtain ⟨tokens, hsource⟩ := exists_ok_of_isOk hsome
  have hread : ((SignificantTokens.ofSource source).toOption.bind fun tokens =>
      (Parser.constant ⟨0, tokens.values⟩).toOption).map (·.1.value.render) =
      some "[\"\\u0007\\\"é\", \x7ba: -1.50E+3, a: \"\"\x7d, [], null]" := by
    decide +kernel
  rw [hsource] at hread
  obtain ⟨⟨⟨value, place⟩, later⟩, hresult, hrender⟩ := Option.map_eq_some_iff.mp hread
  have hconstant : Parser.constant ⟨0, tokens.values⟩ = .ok (⟨value, place⟩, later) := by
    cases hcase : Parser.constant ⟨0, tokens.values⟩ with
    | error refusal =>
      rw [Except.toOption, Option.bind_some, hcase] at hresult
      cases hresult
    | ok answer =>
      rw [Except.toOption, Option.bind_some, hcase] at hresult
      cases hresult
      rfl
  have hproduced : value.Produced :=
    ⟨source, tokens, _, place, later, hsource, List.suffix_refl _, hconstant⟩
  exact ⟨value, hproduced, hrender, (constant_render hproduced).1⟩

end Value

end SdlGraph
