import SdlGraph.Proofs.Document.FirstOffence
import SdlGraph.Proofs.Document.Ranges
import SdlGraph.Proofs.Graph.Depiction
import SdlGraph.Proofs.Token.Splitting

/-!
# Written types read back

The written form of a type is schema text again. Its lexemes are the brackets, the name and the
exclamation marks, with nothing between them, so reading takes all of them, the place of the type is
the whole text and the place of its name is the name in it. No two types are written alike, and the
name is what is left of the written form without its marks.
-/

namespace SdlGraph

/-- A text is a name: a letter or an underscore, and any letters, digits and underscores. -/
def IsName (name : String) : Prop :=
  ∃ first more, name.toList = first :: more ∧ Reading.isNameStart first = true ∧
    ∀ c ∈ more, Reading.isNameChar c = true

/-- Names are made of the characters with which a name can go on. -/
theorem IsName.isNameChar {name : String} (h : IsName name) :
    ∀ c ∈ name.toList, Reading.isNameChar c = true := by
  obtain ⟨first, more, htext, hfirst, hmore⟩ := h
  rw [htext]
  exact List.forall_mem_cons.mpr ⟨by simp [Reading.isNameChar, hfirst], hmore⟩

/-- A name is a lexeme before anything that does not go on with it. -/
theorem IsName.lexeme {name : String} (h : IsName name) {rest : List Char}
    (hrest : StartsOutside Reading.isNameChar rest) : Lexeme (.name name) name.toList rest := by
  obtain ⟨first, more, htext, hfirst, hmore⟩ := h
  have hname := Lexeme.name hfirst hmore hrest
  rwa [← htext, String.ofList_toList] at hname

/-- A word in a run of tokens is one of them, and its place is that of the token. -/
theorem Outlined.exists_word {start : Nat} {taken : List Token} {place : Extent} {name : String}
    (h : Outlined start taken [.leaf place (Spelling.word name)]) :
    ∃ gap later, taken = gap ++ .name name :: later ∧
      place = Refusal.tokenExtent (start + gap.length) := by
  cases h with
  | @cons _ _ _ gap run later _ _ _ _ hfirst hstop _ hspelling hplace _ _ =>
    obtain rfl := Spelling.mem_word.mp hspelling
    exact ⟨gap, later, rfl, by rw [hplace place rfl, hstop, hfirst]; rfl⟩

namespace TypeRef

/-- The lexemes of the written form of a type. -/
def lexemes : TypeRef → List (Token × List Char)
  | named name => [(.name name, name.toList)]
  | list element =>
    (.punctuator .leftBracket, ['[']) :: (element.lexemes ++ [(.punctuator .rightBracket, [']'])])
  | nonNull inner => inner.lexemes ++ [(.punctuator .bang, ['!'])]

variable {type : TypeRef}

/-- The written form of a type splits into its lexemes before anything that does not go on with a
name. -/
theorem splits_render (hname : IsName type.baseName) {rest : List Char}
    {split : List (Token × List Char)} (hrest : StartsOutside Reading.isNameChar rest)
    (h : Lexeme.Splits rest split) :
    Lexeme.Splits (type.render.toList ++ rest) (type.lexemes ++ split) := by
  induction type generalizing rest split with
  | named name => exact .cons (hname.lexeme hrest) h
  | list element ih =>
    have hclosed : Lexeme.Splits (']' :: rest) ((.punctuator .rightBracket, [']']) :: split) :=
      .cons (.punctuator .rightBracket) h
    have helement := ih hname (StartsOutside.cons_iff.mpr (by decide)) hclosed
    have hopened : Lexeme.Splits ('[' :: (element.render.toList ++ ']' :: rest))
        ((.punctuator .leftBracket, ['[']) ::
          (element.lexemes ++ (.punctuator .rightBracket, [']']) :: split)) :=
      .cons (.punctuator .leftBracket) helement
    simpa [render, lexemes] using hopened
  | nonNull inner ih =>
    have hbanged : Lexeme.Splits ('!' :: rest) ((.punctuator .bang, ['!']) :: split) :=
      .cons (.punctuator .bang) h
    have hinner := ih hname (StartsOutside.cons_iff.mpr (by decide)) hbanged
    simpa [render, lexemes] using hinner

theorem lexemes_ne_nil (type : TypeRef) : type.lexemes ≠ [] := by
  cases type <;> simp [lexemes]

/-- The lexemes of a type are a spelling of it. -/
theorem map_fst_lexemes (type : TypeRef) : type.lexemes.map (·.1) ∈ type.spelling := by
  induction type with
  | named name => rfl
  | list element ih =>
    refine Spelling.mem_enclosed.mpr ⟨_, ih, ?_⟩
    simp [lexemes]
  | nonNull inner ih =>
    rw [lexemes, List.map_append]
    exact Spelling.append_mem_prod ih (Spelling.mem_prod_singleton.mpr rfl)

/-- They are all significant. -/
theorem isTrivia_of_mem_lexemes : ∀ lexeme ∈ type.lexemes, lexeme.1.isTrivia = false := by
  induction type with
  | named name => simp [lexemes, Token.isTrivia]
  | list element ih => simpa [lexemes, Token.isTrivia, or_imp, forall_and] using ih
  | nonNull inner ih => simpa [lexemes, Token.isTrivia, or_imp, forall_and] using ih

/-- Only the name is a lexeme that is a word. -/
theorem eq_of_mem_lexemes {lexeme : Token × List Char} {name : String} (h : lexeme ∈ type.lexemes)
    (hname : lexeme.1 = .name name) : lexeme.2 = name.toList := by
  induction type with
  | named other =>
    obtain rfl := List.mem_singleton.mp h
    rw [Token.name.inj hname]
  | list element ih =>
    simp only [lexemes, List.mem_cons, List.mem_append, List.not_mem_nil, or_false] at h
    rcases h with rfl | h | rfl
    · cases hname
    · exact ih h
    · cases hname
  | nonNull inner ih =>
    rcases List.mem_append.mp h with h | h
    · exact ih h
    · obtain rfl := List.mem_singleton.mp h
      cases hname

/-- The significant tokens of the written form of a type. -/
def tokens (type : TypeRef) : SignificantTokens := ⟨Lexeme.locate 0 type.lexemes⟩

theorem splits_render_self (hname : IsName type.baseName) :
    Lexeme.Splits type.render.toList type.lexemes := by
  have hnone : StartsOutside Reading.isNameChar [] := fun c hc => absurd hc (Option.not_mem_none c)
  simpa using splits_render hname hnone .nil

theorem scan_render (hname : IsName type.baseName) :
    Token.scan type.render = .ok type.tokens.tokens :=
  Lexeme.scan_eq_ok_iff.mpr ⟨_, splits_render_self hname, rfl⟩

theorem map_value_tokens (type : TypeRef) : type.tokens.values = type.lexemes.map (·.1) := by
  have hvalues (start : Nat) (split : List (Token × List Char)) :
      (Lexeme.locate start split).map (·.value) = split.map (·.1) := by
    induction split generalizing start with
    | nil => rfl
    | cons lexeme rest ih => rw [Lexeme.locate, List.map_cons, ih, List.map_cons]
  exact hvalues 0 type.lexemes

/-- There is nothing but significant tokens. -/
theorem ofSource_render (hname : IsName type.baseName) :
    SignificantTokens.ofSource type.render = .ok type.tokens := by
  have hall : type.tokens.tokens.filter (fun token => !token.value.isTrivia) =
      type.tokens.tokens := by
    refine List.filter_eq_self.mpr fun token ht => ?_
    have hvalue : token.value ∈ type.lexemes.map (·.1) :=
      map_value_tokens type ▸ List.mem_map_of_mem ht
    obtain ⟨lexeme, hlexeme, he⟩ := List.mem_map.mp hvalue
    rw [← he, isTrivia_of_mem_lexemes lexeme hlexeme]
    rfl
  rw [SignificantTokens.ofSource, scan_render hname]
  simp only [hall]

/-- A token that is a word stands where its name does. -/
theorem holds_of_name (hname : IsName type.baseName) {index : Nat} {token : Located Span Token}
    {name : String} (htoken : type.tokens.tokens[index]? = some token)
    (hvalue : token.value = .name name) : token.place.Holds type.render name := by
  have hholds := (splits_render_self hname).holds (List.nil_append type.render.toList).symm
  obtain ⟨hindex, rfl⟩ := List.getElem?_eq_some_iff.mp htoken
  have hindex' : index < type.lexemes.length := hholds.length_eq ▸ hindex
  obtain ⟨hsame, hplace⟩ := hholds.get hindex hindex'
  have hpiece := eq_of_mem_lexemes (List.get_mem type.lexemes ⟨index, hindex'⟩)
    (hsame.symm.trans hvalue)
  rw [hpiece, String.ofList_toList] at hplace
  exact hplace

/-- The tokens of a type reach from the start of its written form to the end. -/
theorem locate_all (hname : IsName type.baseName) :
    (Extent.mk 0 type.tokens.values.length).locate type.tokens.spans =
      .between 0 type.render.utf8ByteSize := by
  have hcover : Token.Cover type.render type.tokens.tokens := (splits_render_self hname).cover
  have hne : type.tokens.tokens ≠ [] := by
    intro hnil
    have hvalues := map_value_tokens type
    rw [SignificantTokens.values, hnil] at hvalues
    exact lexemes_ne_nil type (List.map_eq_nil_iff.mp hvalues.symm)
  have hfirst := List.head?_eq_some_head hne
  have hlast := List.getLast?_eq_some_getLast hne
  have hstart := hcover.first _ hfirst
  have hstop := hcover.last _ hlast
  rw [List.head?_eq_getElem?] at hfirst
  rw [List.getLast?_eq_getElem?] at hlast
  have hlength : type.tokens.values.length = type.tokens.tokens.length := List.length_map _
  rw [hlength, SignificantTokens.locate_eq_between hfirst hlast, hstart, hstop]

/-- Reading the tokens of a type gives the type, with its place and the place of its name. -/
theorem typeUse_tokens (hname : IsName type.baseName) (hfine : type.Grammatical) :
    ∃ use, Parser.typeUse ⟨0, type.tokens.values⟩ = .ok (use, ⟨type.tokens.values.length, []⟩) ∧
      use.type = type ∧
      use.place.locate type.tokens.spans = .between 0 type.render.utf8ByteSize ∧
      (use.namePlace.locate type.tokens.spans).Holds type.render type.baseName := by
  have hspelling : type.tokens.values ∈ type.spelling :=
    map_value_tokens type ▸ map_fst_lexemes type
  obtain ⟨use, hread, huse⟩ := Parser.recovers_typeUse ⟨type, (), ()⟩ hfine _ hspelling []
    HeadOutside.nil 0
  rw [List.append_nil, Nat.zero_add] at hread
  obtain rfl : use.type = type := congrArg TypeUse.type huse
  obtain ⟨taken, ⟨houtlined, hplace⟩, htaken, -⟩ := Parser.takesFrom_typeUse _ _ _ rfl hread
  rw [List.append_nil] at htaken
  obtain rfl : use.type.tokens.values = taken := htaken
  refine ⟨use, hread, rfl, ?_, ?_⟩
  · rw [hplace, Nat.zero_add]
    exact locate_all hname
  · obtain ⟨gap, later, htokens, hnamePlace⟩ := houtlined.exists_word
    have hvalue : use.type.tokens.values[gap.length]? = some (.name use.type.baseName) := by
      rw [htokens, List.getElem?_append_right (Nat.le_refl _), Nat.sub_self]
      rfl
    rw [SignificantTokens.getElem?_values, Option.map_eq_some_iff] at hvalue
    obtain ⟨token, htoken, hvalue⟩ := hvalue
    have hlocated := SignificantTokens.locate_tokenExtent htoken
    rw [hnamePlace, Nat.zero_add]
    exact hlocated ▸ holds_of_name hname htoken hvalue

/-- Types that are written alike are the same. -/
theorem render_injective {other : TypeRef} (hname : IsName type.baseName)
    (hfine : type.Grammatical) (hname' : IsName other.baseName) (hfine' : other.Grammatical)
    (h : other.render = type.render) : other = type := by
  obtain ⟨use, hread, hsame, -⟩ := typeUse_tokens hname hfine
  obtain ⟨use', hread', hsame', -⟩ := typeUse_tokens hname' hfine'
  have htokens : other.tokens = type.tokens := by
    have hsource := ofSource_render hname'
    rw [h, ofSource_render hname] at hsource
    exact (Except.ok.inj hsource).symm
  rw [htokens, hread] at hread'
  obtain ⟨rfl, -⟩ := Prod.mk.inj (Except.ok.inj hread')
  exact hsame'.symm.trans hsame

/-- A text without its brackets and exclamation marks. -/
def unwrapped (text : String) : String :=
  String.ofList (text.toList.filter fun c => c != '[' && c != ']' && c != '!')

/-- The name of a type is what is left of its written form. -/
theorem unwrapped_render (hname : IsName type.baseName) :
    unwrapped type.render = type.baseName := by
  have hkept : type.render.toList.filter (fun c => c != '[' && c != ']' && c != '!') =
      type.baseName.toList := by
    induction type with
    | named name =>
      refine List.filter_eq_self.mpr fun c hc => ?_
      have hchar := hname.isNameChar c hc
      have hopening : c ≠ '[' := by rintro rfl; exact absurd hchar (by decide)
      have hclosing : c ≠ ']' := by rintro rfl; exact absurd hchar (by decide)
      have hbang : c ≠ '!' := by rintro rfl; exact absurd hchar (by decide)
      simp [hopening, hclosing, hbang]
    | list element ih => simpa [render, baseName] using ih hname
    | nonNull inner ih => simpa [render, baseName] using ih hname
  rw [unwrapped, hkept, String.ofList_toList]

end TypeRef

/-- Fields with names that are shown in the same line have the same name, and types that are written
alike. -/
theorem FieldEntry.eq_of_summary_eq {field other : FieldEntry} (hname : IsName field.name)
    (hname' : IsName other.name) (h : other.summary = field.summary) :
    other.name = field.name ∧ other.type.render = field.type.render := by
  have htext := congrArg String.toList h
  simp only [summary, String.toList_append, List.append_assoc] at htext
  -- The name is the run of its characters up to the colon.
  have hcolon (text : List Char) : StartsOutside Reading.isNameChar (": ".toList ++ text) :=
    StartsOutside.cons_iff.mpr (by decide)
  obtain ⟨hrun, hrest⟩ :=
    takeWhile_dropWhile_iff.mpr ⟨rfl, hname'.isNameChar, hcolon other.type.render.toList⟩
  obtain ⟨hrun', hrest'⟩ := takeWhile_dropWhile_iff.mpr ⟨htext, hname.isNameChar, hcolon _⟩
  rw [hrun] at hrun'
  rw [hrest, List.append_cancel_left_eq] at hrest'
  exact ⟨String.toList_inj.mp hrun', String.toList_inj.mp hrest'⟩

/-- An edge of a graph leads to what is left of the written type of its field. -/
theorem Catalog.targetName_of_mem_edges {layout : Layout} {catalog : Catalog} {edge : Edge}
    (h : edge ∈ (catalog.project layout).edges) :
    ∃ source field, catalog.shownTypes[edge.source]? = some source ∧ field ∈ source.fields ∧
      edge.field = field.name ∧ edge.targetName = field.type.baseName := by
  obtain ⟨source, type, field, htype, hfield, target, earlier, -, -, hname, rfl⟩ :=
    (catalog.depicts_project layout).edge h
  exact ⟨type, field, htype, hfield, rfl, hname.symm⟩

/-- The written form of a type is cut into tokens without a fault, and reading these takes all of
them and gives the type back, with the whole text as its place and its name as the place of the
name. So types that are written alike are the same, in the lines of fields as well. The name is what
is left of the written type without the marks, and an edge of a graph leads there from a field. -/
theorem TypeRef.render_readBack {type : TypeRef} (hname : IsName type.baseName)
    (hfine : type.Grammatical) :
    (∃ (tokens : SignificantTokens) (use : TypeUse Extent),
      Token.scan type.render = .ok tokens.tokens ∧
      SignificantTokens.ofSource type.render = .ok tokens ∧
      Parser.typeUse ⟨0, tokens.values⟩ = .ok (use, ⟨tokens.values.length, []⟩) ∧
      use.type = type ∧
      use.place.locate tokens.spans = .between 0 type.render.utf8ByteSize ∧
      (use.namePlace.locate tokens.spans).Holds type.render type.baseName) ∧
    (∀ other : TypeRef, IsName other.baseName → other.Grammatical → other.render = type.render →
      other = type) ∧
    (∀ field other : FieldEntry, field.type = type → IsName other.type.baseName →
      other.type.Grammatical → IsName field.name → IsName other.name →
      other.summary = field.summary → other.name = field.name ∧ other.type = type) ∧
    unwrapped type.render = type.baseName ∧
    ∀ (layout : Layout) (catalog : Catalog), ∀ edge ∈ (catalog.project layout).edges,
      ∃ source field, catalog.shownTypes[edge.source]? = some source ∧ field ∈ source.fields ∧
        edge.field = field.name ∧ edge.targetName = field.type.baseName ∧
        (field.type = type → edge.targetName = unwrapped type.render) := by
  obtain ⟨use, hread⟩ := typeUse_tokens hname hfine
  refine ⟨⟨type.tokens, use, scan_render hname, ofSource_render hname, hread⟩,
    fun other => render_injective hname hfine, ?_, unwrapped_render hname, ?_⟩
  · rintro field other rfl hname' hfine' hfield hother hsummary
    obtain ⟨hsame, hrender⟩ := FieldEntry.eq_of_summary_eq hfield hother hsummary
    exact ⟨hsame, render_injective hname hfine hname' hfine' hrender⟩
  · intro layout catalog edge hedge
    obtain ⟨source, field, hsource, hfield, hedgeField, htarget⟩ :=
      Catalog.targetName_of_mem_edges hedge
    refine ⟨source, field, hsource, hfield, hedgeField, htarget, ?_⟩
    rintro rfl
    rw [htarget, unwrapped_render hname]

/-- A list without null of items without null. -/
theorem TypeRef.render_readBack_list :
    ∃ (tokens : SignificantTokens) (use : TypeUse Extent),
      SignificantTokens.ofSource "[Node!]!" = .ok tokens ∧
      Parser.typeUse ⟨0, tokens.values⟩ = .ok (use, ⟨tokens.values.length, []⟩) ∧
      use.type = .nonNull (.list (.nonNull (.named "Node"))) ∧
      (use.namePlace.locate tokens.spans).Holds "[Node!]!" "Node" := by
  have hname : IsName (nonNull (.list (.nonNull (.named "Node")))).baseName :=
    ⟨'N', ['o', 'd', 'e'], by decide +kernel, by decide, List.all_eq_true.mp rfl⟩
  have hfine : (nonNull (.list (.nonNull (.named "Node")))).Grammatical :=
    ⟨⟨rfl, rfl, trivial⟩, by decide⟩
  have htext : (nonNull (.list (.nonNull (.named "Node")))).render = "[Node!]!" := by
    decide +kernel
  obtain ⟨⟨tokens, use, -, hsource, hread, htype, -, hplace⟩, -⟩ := render_readBack hname hfine
  rw [htext] at hsource hplace
  exact ⟨tokens, use, hsource, hread, htype, hplace⟩

end SdlGraph
