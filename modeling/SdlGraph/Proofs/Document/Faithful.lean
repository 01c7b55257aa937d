import SdlGraph.Proofs.Document.Brackets
import SdlGraph.Proofs.Document.Consumption

/-!
# Reading drops, invents and moves nothing

Every construct of the grammar takes exactly a spelling of its result, and its result is what the
grammar asks for. The whole token list of a document that is read is therefore a spelling of the
document.
-/

namespace SdlGraph

open Spelling

namespace Parser

/-- A name is taken as the word it is. -/
theorem takes_name (expectation : Expectation) :
    (name expectation).Takes fun name taken => taken ∈ word name.value := by
  refine (Takes.take Token.name?).mono fun name taken h => ?_
  obtain ⟨token, ht, rfl⟩ := h
  cases token <;> cases ht
  rfl

/-- A description is taken as a quoted or a block string, and none as nothing. -/
theorem takes_description : description.Takes fun written taken => taken ∈ describing written := by
  refine (Takes.take? Token.text?).mono fun written taken h => ?_
  cases written with
  | none => exact (Language.mem_one _).mpr h
  | some written =>
    obtain ⟨token, ht, rfl⟩ := h
    cases token <;> cases ht
    · exact mem_text.mpr (.inl rfl)
    · exact mem_text.mpr (.inr rfl)

/-- A constant of one token is spelled by it, and an enum value is no reserved word. -/
theorem takes_scalarValue : scalarValue.Takes fun read taken =>
    taken ∈ read.value.spelling ∧ read.value.EnumsProper ∧ read.value.depth = 0 := by
  refine (Takes.take Token.value?).mono fun ⟨value, place⟩ taken h => ?_
  obtain ⟨token, ht, rfl⟩ := h
  unfold Token.value? at ht
  split at ht <;> cases ht
  next => exact ⟨rfl, trivial, rfl⟩
  next => exact ⟨rfl, trivial, rfl⟩
  next => exact ⟨mem_text.mpr (.inl rfl), trivial, rfl⟩
  next => exact ⟨mem_text.mpr (.inr rfl), trivial, rfl⟩
  next => exact ⟨rfl, trivial, rfl⟩
  next => exact ⟨rfl, trivial, rfl⟩
  next => exact ⟨rfl, trivial, rfl⟩
  next text htrue hfalse hnull =>
    refine ⟨rfl, ?_, rfl⟩
    simp only [Value.EnumsProper, reservedWords, List.mem_cons, List.not_mem_nil, or_false, not_or]
    exact ⟨fun h => htrue (h ▸ rfl), fun h => hfalse (h ▸ rfl), fun h => hnull (h ▸ rfl)⟩

section

variable {levels : Nat} {content : Parser (Located Extent Value)}
  (ih : content.Takes fun read taken =>
    taken ∈ read.value.spelling ∧ read.value.EnumsProper ∧ read.value.depth ≤ levels)

include ih

theorem takes_listItem : (Located.value <$> content).Takes fun value taken =>
    taken ∈ value.spelling ∧ value.EnumsProper ∧ value.depth ≤ levels :=
  Takes.map ih

/-- The items of a list and its closing mark, after its opening mark. -/
theorem takes_listValue (start : Extent) : (listValue content start).Takes fun read taken =>
    .punctuator .leftBracket :: taken ∈ read.value.spelling ∧
      read.value.EnumsProper ∧ read.value.depth ≤ levels + 1 := by
  refine Takes.bind (Takes.upTo (takes_listItem ih) nil_not_mem_value)
    fun ⟨items, stop⟩ us ⟨hfine, hu⟩ => ?_
  have hproper : Value.itemsProper items :=
    Value.itemsProper_iff.mpr fun item hi => (hfine item hi).1
  have hdepth : Value.itemsDepth items ≤ levels :=
    Value.itemsDepth_le_iff.mpr fun item hi => (hfine item hi).2
  refine Takes.pure ⟨?_, hproper, Nat.succ_le_succ hdepth⟩
  rw [List.append_nil, Value.spelling, Value.itemsSpelling_eq_each]
  exact append_mem_prod (mem_mark.mpr rfl) hu

/-- An entry of an input object is its name, a colon and its value. -/
theorem takes_objectEntry : (objectEntry content).Takes fun entry taken =>
    taken ∈ Value.entrySpelling entry ∧ entry.2.EnumsProper ∧ entry.2.depth ≤ levels := by
  refine Takes.bind (takes_name _) fun name us hu => ?_
  refine Takes.bind (Takes.expect .colon) fun _ vs hv => ?_
  refine Takes.bind ih fun value ws ⟨hw, hproper, hdepth⟩ => ?_
  have hentry := append_mem_prod hu (append_mem_prod hv (append_mem_prod hw nil_mem_prod))
  exact Takes.pure ⟨hentry, hproper, hdepth⟩

/-- The entries of an input object and its closing mark, after its opening mark. -/
theorem takes_objectValue (start : Extent) : (objectValue content start).Takes fun read taken =>
    .punctuator .leftBrace :: taken ∈ read.value.spelling ∧
      read.value.EnumsProper ∧ read.value.depth ≤ levels + 1 := by
  refine Takes.bind (Takes.upTo (takes_objectEntry ih) nil_not_mem_entry)
    fun ⟨entries, stop⟩ us ⟨hfine, hu⟩ => ?_
  have hproper : Value.entriesProper entries :=
    Value.entriesProper_iff.mpr fun entry he => (hfine entry he).1
  have hdepth : Value.entriesDepth entries ≤ levels :=
    Value.entriesDepth_le_iff.mpr fun entry he => (hfine entry he).2
  refine Takes.pure ⟨?_, hproper, Nat.succ_le_succ hdepth⟩
  rw [List.append_nil, Value.spelling, Value.entriesSpelling_eq_each]
  exact append_mem_prod (mem_mark.mpr rfl) hu

end

/-- A constant read with some levels left is spelled by what it takes and nests no deeper. -/
theorem takes_value (levels : Nat) : (value levels).Takes fun read taken =>
    taken ∈ read.value.spelling ∧ read.value.EnumsProper ∧ read.value.depth ≤ levels := by
  have hscalar (bound : Nat) : scalarValue.Takes fun read taken =>
      taken ∈ read.value.spelling ∧ read.value.EnumsProper ∧ read.value.depth ≤ bound := by
    refine takes_scalarValue.mono fun read taken ⟨hspelling, hproper, hdepth⟩ => ?_
    rw [hdepth]
    exact ⟨hspelling, hproper, Nat.zero_le bound⟩
  induction levels with
  | zero =>
    refine Takes.bind_peek? fun next => ?_
    split
    next => exact Takes.refuse
    next => exact Takes.refuse
    next => exact hscalar 0
  | succ levels ih =>
    refine Takes.ifNext (fun start => (takes_listValue ih start).committed) ?_
    exact Takes.ifNext (fun start => (takes_objectValue ih start).committed) (hscalar (levels + 1))

theorem takes_namedType : typeRef.namedType.Takes fun use taken =>
    taken ∈ use.type.spelling ∧ use.type.NonNullApart ∧ use.type.isNonNull = false ∧
      use.type.listDepth = 0 := by
  refine Takes.bind (takes_name .type) fun name us hu => ?_
  exact Takes.pure ⟨by rwa [List.append_nil], trivial, rfl, rfl⟩

/-- The type in a list and the closing mark, after the opening mark. -/
theorem takes_listType {levels : Nat} {inner : Parser (TypeUse Extent)}
    (h : inner.Takes fun use taken => taken ∈ use.type.spelling ∧ use.type.NonNullApart ∧
      use.type.listDepth ≤ levels) (start : Extent) :
    (typeRef.listType inner start).Takes fun use taken =>
      [.punctuator .leftBracket] ++ taken ∈ use.type.spelling ∧ use.type.NonNullApart ∧
        use.type.isNonNull = false ∧ use.type.listDepth ≤ levels + 1 := by
  refine Takes.bind h fun element us ⟨hu, hapart, hdepth⟩ => ?_
  refine Takes.bind (Takes.expect .rightBracket) fun stop vs hv => ?_
  refine Takes.pure ⟨?_, hapart, rfl, Nat.succ_le_succ hdepth⟩
  exact append_mem_prod (mem_mark.mpr rfl) (append_mem_prod hu (append_mem_prod hv nil_mem_prod))

/-- An exclamation mark is taken once, after a type that has none, whatever was taken before. -/
theorem takes_nullable {levels : Nat} {before : List Token} {inner : Parser (TypeUse Extent)}
    (h : inner.Takes fun use taken => before ++ taken ∈ use.type.spelling ∧
      use.type.NonNullApart ∧ use.type.isNonNull = false ∧ use.type.listDepth ≤ levels) :
    (typeRef.nullable inner).Takes fun use taken =>
      before ++ taken ∈ use.type.spelling ∧ use.type.NonNullApart ∧
        use.type.listDepth ≤ levels := by
  refine Takes.bind h fun use us ⟨hu, hapart, hnull, hdepth⟩ => ?_
  have hbanged : before ++ (us ++ [.punctuator .bang]) ∈ use.type.nonNull.spelling := by
    rw [← List.append_assoc]
    exact append_mem_prod hu (append_mem_prod (mem_mark.mpr rfl) nil_mem_prod)
  have hbare : before ++ (us ++ []) ∈ use.type.spelling := by rwa [List.append_nil]
  exact Takes.ifNext (fun bang => Takes.pure ⟨hbanged, ⟨hnull, hapart⟩, hdepth⟩)
    (Takes.pure ⟨hbare, hapart, hdepth⟩)

/-- A type read with some levels left is spelled by what it takes and has no more lists. -/
theorem takes_typeRef (levels : Nat) : (typeRef levels).Takes fun use taken =>
    taken ∈ use.type.spelling ∧ use.type.NonNullApart ∧ use.type.listDepth ≤ levels := by
  have hnamed (bound : Nat) : typeRef.namedType.Takes fun use taken =>
      [] ++ taken ∈ use.type.spelling ∧ use.type.NonNullApart ∧ use.type.isNonNull = false ∧
        use.type.listDepth ≤ bound :=
    takes_namedType.mono fun use taken ⟨hs, ha, hn, hd⟩ => ⟨hs, ha, hn, hd ▸ Nat.zero_le _⟩
  induction levels with
  | zero =>
    refine Takes.bind_peek? fun next => ?_
    split
    · exact Takes.refuse
    · exact takes_nullable (hnamed 0)
  | succ levels ih =>
    exact Takes.ifNext (fun start => takes_nullable (takes_listType ih start).committed)
      (takes_nullable (hnamed (levels + 1)))

/-- A type takes its spelling within the nesting limit. -/
theorem takes_typeUse : typeUse.Takes fun use taken =>
    taken ∈ use.type.spelling ∧ use.type.Grammatical :=
  takes_typeRef nestingLimit

theorem takes_constant : constant.Takes fun value taken =>
    taken ∈ value.value.spelling ∧ value.value.Grammatical :=
  takes_value nestingLimit

theorem takes_argument : argument.Takes fun argument taken =>
    taken ∈ argument.spelling ∧ argument.value.value.Grammatical := by
  refine Takes.bind (takes_name _) fun name us hu => ?_
  refine Takes.bind (Takes.expect .colon) fun _ vs hv => ?_
  refine Takes.bind takes_constant fun value ws ⟨hw, hvalue⟩ => ?_
  exact Takes.pure ⟨append_mem_prod hu (append_mem_prod hv (append_mem_prod hw nil_mem_prod)),
    hvalue⟩

/-- A directive application is taken with its own arguments. -/
theorem takes_directiveUse (start : Extent) : (directiveUse start).Takes fun use taken =>
    .punctuator .atSign :: taken ∈ use.spelling ∧ use.Grammatical := by
  refine Takes.bind (takes_name _) fun name us hu => ?_
  refine Takes.bind (Takes.delimited takes_argument nil_not_mem_argument)
    fun ⟨arguments, block⟩ vs ⟨hfine, hv, _⟩ => ?_
  exact Takes.pure ⟨append_mem_prod (mem_mark.mpr rfl) (append_mem_prod hu
    (append_mem_prod hv nil_mem_prod)), hfine⟩

theorem takes_directiveUse? : directiveUse?.Takes fun result taken =>
    result.elim (taken = []) fun use => taken ∈ use.spelling ∧ use.Grammatical := by
  refine (Takes.following fun start => (takes_directiveUse start).committed).mono ?_
  intro result taken hr
  cases result with
  | none => exact hr
  | some use =>
    obtain ⟨us, hu, rfl⟩ := hr
    exact hu

/-- Directives take their spellings in order. -/
theorem takes_directives : directives.Takes fun uses taken =>
    (∀ use ∈ uses, use.Grammatical) ∧ taken ∈ each DirectiveUse.spelling uses := by
  refine (Takes.collect takes_directiveUse? nil_not_mem_directiveUse).mono fun uses taken hu => ?_
  obtain ⟨hfine, us, hus, vs, rfl, rfl⟩ := hu
  exact ⟨hfine, by rwa [List.append_nil]⟩

/-- An input value takes its parts in grammar order. -/
theorem takes_inputValue (expectation : Expectation) :
    (inputValue expectation).Takes fun input taken =>
      taken ∈ input.spelling ∧ input.Grammatical := by
  refine Takes.bind takes_description fun description us hu => ?_
  refine Takes.bind (takes_name expectation) fun name vs hv => ?_
  refine Takes.committed (Takes.bind (Takes.expect .colon) fun _ ws hw => ?_)
  refine Takes.bind takes_typeUse fun type xs ⟨hx, htype⟩ => ?_
  refine Takes.bind (Takes.following fun _ => takes_constant) fun default ys hy => ?_
  refine Takes.bind takes_directives fun directives zs ⟨huses, hz⟩ => ?_
  have hdefault : ys ∈ InputValue.defaultSpelling default ∧
      ∀ written ∈ default, written.value.Grammatical := by
    cases default with
    | none => exact ⟨hy, by simp⟩
    | some written =>
      obtain ⟨ys', ⟨hy', hvalue⟩, rfl⟩ := hy
      refine ⟨append_mem_prod (mem_mark.mpr rfl) (mem_prod_cons.mpr ⟨ys', hy', [], rfl, ?_⟩), ?_⟩
      · exact List.append_nil ys'
      · intro other ho
        cases ho
        exact hvalue
  refine Takes.pure ⟨?_, htype, hdefault.2, huses⟩
  exact append_mem_prod hu (append_mem_prod hv (append_mem_prod hw (append_mem_prod hx
    (append_mem_prod hdefault.1 (append_mem_prod hz nil_mem_prod)))))

theorem takes_argumentDefinitions : argumentDefinitions.Takes fun arguments taken =>
    (∀ argument ∈ arguments, argument.Grammatical) ∧
      taken ∈ block InputValue.spelling .leftParen .rightParen arguments :=
  Takes.map ((Takes.delimited (takes_inputValue _) nil_not_mem_inputValue).mono
    fun _ _ ⟨hfine, htaken, _⟩ => ⟨hfine, htaken⟩)

/-- A field takes its parts in grammar order. -/
theorem takes_field : field.Takes fun field taken =>
    taken ∈ field.spelling ∧ field.Grammatical := by
  refine Takes.bind takes_description fun description us hu => ?_
  refine Takes.bind (takes_name _) fun name vs hv => ?_
  refine Takes.committed (Takes.bind takes_argumentDefinitions fun arguments ws ⟨ha, hw⟩ => ?_)
  refine Takes.bind (Takes.expect .colon) fun _ xs hx => ?_
  refine Takes.bind takes_typeUse fun type ys ⟨hy, htype⟩ => ?_
  refine Takes.bind takes_directives fun directives zs ⟨huses, hz⟩ => ?_
  refine Takes.pure ⟨?_, ha, htype, huses⟩
  exact append_mem_prod hu (append_mem_prod hv (append_mem_prod hw (append_mem_prod hx
    (append_mem_prod hy (append_mem_prod hz nil_mem_prod)))))

/-- An enum value is named by a word that is no other constant. -/
theorem takes_enumValueName : (take .enumValueName Token.enumValueName?).Takes fun name taken =>
    taken ∈ word name.value ∧ name.value ∉ reservedWords := by
  refine (Takes.take Token.enumValueName?).mono fun ⟨text, place⟩ taken h => ?_
  obtain ⟨token, ht, rfl⟩ := h
  unfold Token.enumValueName? at ht
  split at ht
  next written =>
    split at ht
    next => cases ht
    next hreserved =>
      cases ht
      exact ⟨rfl, hreserved⟩
  next => cases ht

/-- A value of an enum type takes its parts in grammar order. -/
theorem takes_enumValue : enumValue.Takes fun value taken =>
    taken ∈ value.spelling ∧ value.Grammatical := by
  refine Takes.bind takes_description fun description us hu => ?_
  refine Takes.bind takes_enumValueName fun name vs ⟨hv, hreserved⟩ => ?_
  refine Takes.bind (Takes.committed takes_directives) fun directives ws ⟨huses, hw⟩ => ?_
  refine Takes.pure ⟨?_, hreserved, huses⟩
  exact append_mem_prod hu (append_mem_prod hv (append_mem_prod hw nil_mem_prod))

/-- A mark whose presence is not looked at may or may not be written. -/
theorem takes_optional (written : Punctuator) :
    (eat written).Takes fun _ taken => taken ∈ optional (mark written) := by
  refine (Takes.eat written).mono fun place? taken h => ?_
  cases place? with
  | some place => exact mem_optional.mpr (.inr h)
  | none => exact mem_optional.mpr (.inl h)

/-- Names with a mark between them are taken as their spelling. -/
theorem takes_names (expectation : Expectation) (between : Punctuator) :
    (separated between (name expectation)).Takes fun names taken =>
      names ≠ [] ∧ taken ∈ Spelling.separated Located.nameSpelling between names := by
  have hname : (name expectation).Takes fun name taken =>
      taken ∈ name.nameSpelling ∧ True :=
    (takes_name expectation).mono fun name taken h => ⟨h, trivial⟩
  exact (Takes.separated hname).mono fun names taken ⟨hne, _, h⟩ => ⟨hne, h⟩

/-- Interfaces are taken with their keyword, and with a leading mark if there is one. -/
theorem takes_interfaces : interfaces.Takes fun names taken =>
    taken ∈ TypeBody.interfacesSpelling names := by
  refine Takes.bind (Takes.eatWord _) fun eaten us hu => ?_
  subst hu
  cases eaten with
  | false => exact Takes.pure rfl
  | true =>
    refine Takes.committed (Takes.bind (takes_optional .amp) fun _ vs hv => ?_)
    refine (takes_names _ .amp).mono fun names ws ⟨hne, hw⟩ => ?_
    cases names with
    | nil => exact absurd rfl hne
    | cons first rest =>
      have hnames := append_mem_prod hv (mem_prod_singleton.mpr hw)
      exact append_mem_prod (mem_word.mpr rfl) hnames

/-- Members are taken with the equals sign, and with a leading mark if there is one. -/
theorem takes_unionMembers : unionMembers.Takes fun names taken =>
    taken ∈ TypeBody.membersSpelling names := by
  refine Takes.ifNext (fun _ => ?_) (Takes.pure rfl)
  refine Takes.bind (takes_optional .pipe) fun _ us hu => ?_
  refine (takes_names _ .pipe).mono fun names vs ⟨hne, hv⟩ => ?_
  cases names with
  | nil => exact absurd rfl hne
  | cons first rest =>
    have hnames := append_mem_prod hu (mem_prod_singleton.mpr hv)
    exact append_mem_prod (mem_mark.mpr rfl) hnames

/-- The interfaces, directives and fields of an object or interface type. -/
theorem takes_composite {make : List (Located Extent String) → List (Field Extent) →
    TypeBody Extent} : Takes (do
      let interfaces ← interfaces
      let directives ← directives
      let (fields, block) ← fields
      pure (directives, make interfaces fields, block)) fun read taken =>
        ∃ names fields, read.2.1 = make names fields ∧
          taken ∈ [TypeBody.interfacesSpelling names, each DirectiveUse.spelling read.1,
            block Field.spelling .leftBrace .rightBrace fields].prod ∧
          (∀ use ∈ read.1, use.Grammatical) ∧ ∀ field ∈ fields, field.Grammatical := by
  refine Takes.bind takes_interfaces fun names us hu => ?_
  refine Takes.bind takes_directives fun uses vs ⟨huses, hv⟩ => ?_
  refine Takes.bind (Takes.delimited takes_field nil_not_mem_field)
    fun ⟨fields, block⟩ ws ⟨hf, hw, _⟩ => ?_
  refine Takes.pure ⟨names, fields, rfl, ?_, huses, hf⟩
  exact append_mem_prod hu (append_mem_prod hv (append_mem_prod hw nil_mem_prod))

/-- The parts read after the name of a type are those of its kind. -/
theorem takes_typeBody (kind : TypeKind) : (typeBody kind).Takes fun read taken =>
    read.2.1.kind = kind ∧ taken ∈ read.2.1.tailSpelling read.1 ∧
      (∀ use ∈ read.1, use.Grammatical) ∧ read.2.1.Grammatical := by
  cases kind with
  | object =>
    refine takes_composite.mono fun read taken h => ?_
    obtain ⟨names, fields, hread, htaken, huses, hfields⟩ := h
    rw [hread]
    exact ⟨rfl, htaken, huses, hfields, List.forall_mem_nil _, List.forall_mem_nil _⟩
  | interface =>
    refine takes_composite.mono fun read taken h => ?_
    obtain ⟨names, fields, hread, htaken, huses, hfields⟩ := h
    rw [hread]
    exact ⟨rfl, htaken, huses, hfields, List.forall_mem_nil _, List.forall_mem_nil _⟩
  | union =>
    refine Takes.bind takes_directives fun uses us ⟨huses, hu⟩ => ?_
    refine Takes.bind takes_unionMembers fun names vs hv => ?_
    refine Takes.pure ⟨rfl, ?_, huses, List.forall_mem_nil _,
      List.forall_mem_nil _, List.forall_mem_nil _⟩
    exact mem_prod_one_cons.mpr (append_mem_prod hu (append_mem_prod hv nil_mem_prod))
  | enum =>
    refine Takes.bind takes_directives fun uses us ⟨huses, hu⟩ => ?_
    refine Takes.bind (Takes.delimited takes_enumValue nil_not_mem_enumValue)
      fun ⟨values, block⟩ vs ⟨hvalues, hv, _⟩ => ?_
    refine Takes.pure ⟨rfl, ?_, huses, List.forall_mem_nil _,
      List.forall_mem_nil _, hvalues⟩
    exact mem_prod_one_cons.mpr (append_mem_prod hu (append_mem_prod hv nil_mem_prod))
  | inputObject =>
    refine Takes.bind takes_directives fun uses us ⟨huses, hu⟩ => ?_
    refine Takes.bind (Takes.delimited (takes_inputValue _) nil_not_mem_inputValue)
      fun ⟨fields, block⟩ vs ⟨hf, hv, _⟩ => ?_
    refine Takes.pure ⟨rfl, ?_, huses, List.forall_mem_nil _, hf,
      List.forall_mem_nil _⟩
    exact mem_prod_one_cons.mpr (append_mem_prod hu (append_mem_prod hv nil_mem_prod))
  | scalar =>
    refine Takes.bind takes_directives fun uses us ⟨huses, hu⟩ => ?_
    refine Takes.pure ⟨rfl, ?_, huses, List.forall_mem_nil _,
      List.forall_mem_nil _, List.forall_mem_nil _⟩
    exact mem_prod_one_cons.mpr (append_mem_prod hu (mem_prod_one_cons.mpr nil_mem_prod))

/-- A type declaration takes its spelling, and one that extends a type adds something. -/
theorem takes_typeDeclaration (kind : TypeKind) (isExtension : Bool) (start : Extent) :
    (typeDeclaration kind isExtension start).Takes fun declaration taken =>
      taken ∈ declaration.spelling ∧ declaration.Grammatical ∧ (isExtension = true →
        declaration.directives ≠ [] ∨ declaration.body.isEmpty = false) := by
  refine Takes.bind (Takes.expectWord _) fun _ us hu => ?_
  refine Takes.committed (Takes.bind (takes_name _) fun name vs hv => ?_)
  refine Takes.bind (takes_typeBody kind) fun ⟨uses, body, block⟩ ws ⟨hkind, hw, huses, hbody⟩ => ?_
  subst hkind
  dsimp only
  split
  next => exact Takes.refuse
  next hadds =>
    refine Takes.pure ⟨?_, ⟨huses, hbody⟩, fun hextension => ?_⟩
    · rw [List.append_nil]
      exact append_mem_prod hu (append_mem_prod hv hw)
    · by_cases hempty : uses = []
      · right
        subst hempty
        simpa [hextension] using hadds
      · exact .inl hempty

/-- An operation is taken as the keyword of its kind. -/
theorem takes_operation : (take .operation Token.operation?).Takes fun operation taken =>
    taken ∈ word operation.value.keyword := by
  refine (Takes.take Token.operation?).mono fun operation taken h => ?_
  obtain ⟨token, ht, rfl⟩ := h
  cases token with
  | name text => exact mem_word.mpr (by rw [OperationKind.ofKeyword?_eq_some_iff.mp ht])
  | _ => cases ht

/-- A root operation is taken as the keyword of its kind and the name of its type. -/
theorem takes_rootOperation : rootOperation.Takes fun root taken =>
    taken ∈ root.spelling ∧ True := by
  have htail : Takes (do let _ ← expect .colon; name .typeName) fun type taken =>
      taken ∈ [mark .colon, word type.value].prod := by
    refine Takes.bind (Takes.expect .colon) fun _ us hu => ?_
    refine (takes_name _).mono fun type vs hv => ?_
    exact append_mem_prod hu (mem_prod_singleton.mpr hv)
  refine Takes.bind takes_operation fun operation us hu => ?_
  refine Takes.bind htail.committed fun type vs hv => ?_
  refine Takes.pure ⟨?_, trivial⟩
  rw [List.append_nil]
  exact append_mem_prod hu hv

/-- A schema block takes its spelling. A definition names an operation, and an extension names one
unless it applies a directive. -/
theorem takes_schemaBlock (isExtension : Bool) (start : Extent) :
    (schemaBlock isExtension start).Takes fun block taken => taken ∈ block.spelling ∧
      (∀ use ∈ block.directives, use.Grammatical) ∧
      (block.operations ≠ [] ∨ isExtension = true ∧ block.directives ≠ []) := by
  refine Takes.bind (Takes.expectWord _) fun _ us hu => ?_
  refine Takes.committed (Takes.bind takes_directives fun uses vs ⟨huses, hv⟩ => ?_)
  refine Takes.bind (Takes.delimited takes_rootOperation nil_not_mem_rootOperation)
    fun ⟨operations, block⟩ ws ⟨_, hw, hblock⟩ => ?_
  dsimp only
  split
  next => exact Takes.refuse
  next hnames =>
    refine Takes.pure ⟨?_, huses, ?_⟩
    · exact append_mem_prod hu (append_mem_prod hv (append_mem_prod hw nil_mem_prod))
    · by_cases hempty : operations = []
      · right
        have hnone : block = none := hblock.mpr hempty
        simpa [hnone] using hnames
      · exact .inl hempty

/-- A directive location is taken as its name. -/
theorem takes_location : (take .directiveLocation Token.location?).Takes fun location taken =>
    taken ∈ location.locationSpelling := by
  refine (Takes.take Token.location?).mono fun location taken h => ?_
  obtain ⟨token, ht, rfl⟩ := h
  cases token with
  | name text => exact mem_word.mpr (by rw [DirectiveLocation.ofName?_eq_some_iff.mp ht])
  | _ => cases ht

/-- A directive declaration takes its spelling, with a location at least. -/
theorem takes_directiveDeclaration (start : Extent) :
    (directiveDeclaration start).Takes fun declaration taken =>
      taken ∈ declaration.spelling ∧ declaration.Grammatical := by
  have hlocation : directiveLocation.Takes fun location taken =>
      taken ∈ location.locationSpelling ∧ True :=
    takes_location.mono fun _ _ h => ⟨h, trivial⟩
  refine Takes.bind (Takes.expectWord _) fun _ ss hs => ?_
  refine Takes.committed (Takes.bind (Takes.expect .atSign) fun _ ts ht => ?_)
  refine Takes.bind (takes_name _) fun name us hu => ?_
  refine Takes.bind takes_argumentDefinitions fun arguments vs ⟨harguments, hv⟩ => ?_
  refine Takes.bind (Takes.eatWord _) fun isRepeatable ws hw => ?_
  refine Takes.bind (Takes.expectWord _) fun _ xs hx => ?_
  refine Takes.bind (takes_optional .pipe) fun _ ys hy => ?_
  refine Takes.bind (Takes.separated hlocation) fun locations zs ⟨hne, _, hz⟩ => ?_
  have hrepeatable : ws ∈ if isRepeatable then word "repeatable" else (1 : Language Token) := by
    subst hw
    cases isRepeatable <;> rfl
  refine Takes.pure ⟨?_, harguments, hne⟩
  exact append_mem_prod hs (append_mem_prod ht (append_mem_prod hu (append_mem_prod hv
    (append_mem_prod hrepeatable (append_mem_prod hx (append_mem_prod hy
    (append_mem_prod hz nil_mem_prod)))))))

/-- After its keyword, an extension takes the rest of its spelling and adds something. -/
theorem takes_extension (start : Extent) : (extension start).Takes fun definition taken =>
    .name "extend" :: taken ∈ definition.spelling ∧ definition.Grammatical := by
  refine Takes.bind_peek? fun next => ?_
  split
  next =>
    refine Takes.map ((takes_schemaBlock true start).mono fun block taken h => ?_)
    obtain ⟨htaken, huses, hadds⟩ := h
    exact ⟨append_mem_prod (mem_word.mpr rfl) (mem_prod_singleton.mpr htaken), huses,
      hadds.symm.imp_left And.right⟩
  next word _ =>
    split
    next kind _ =>
      refine Takes.map ((takes_typeDeclaration kind true start).mono fun block taken h => ?_)
      obtain ⟨htaken, hdeclaration, hadds⟩ := h
      exact ⟨append_mem_prod (mem_word.mpr rfl) (mem_prod_singleton.mpr htaken), hdeclaration,
        hadds rfl⟩
    next => exact Takes.refuse
  next => exact Takes.refuse

/-- A definition takes the rest of its spelling after its description, and an extension has none. -/
theorem takes_describedDefinition {us : List Token} (start : Extent)
    {described : Option (Located Extent String)} (hu : us ∈ describing described) :
    (describedDefinition start described).Takes fun definition taken =>
      us ++ taken ∈ definition.spelling ∧ definition.Grammatical := by
  refine Takes.bind_peek? fun next => ?_
  split
  next => exact Takes.refuse
  next => exact Takes.refuse
  next word =>
    split_ifs with hschema hdirective hextend hexecutable
    · refine Takes.map ((takes_schemaBlock false start).mono fun block taken h => ?_)
      obtain ⟨htaken, huses, hadds⟩ := h
      refine ⟨append_mem_prod hu (mem_prod_singleton.mpr htaken), huses, ?_⟩
      exact hadds.resolve_right fun h => Bool.noConfusion h.1
    · refine Takes.map ((takes_directiveDeclaration start).mono fun declaration taken h => ?_)
      obtain ⟨htaken, hdeclaration⟩ := h
      exact ⟨append_mem_prod hu (mem_prod_singleton.mpr htaken), hdeclaration⟩
    · obtain rfl : described = none := Option.isNone_iff_eq_none.mp hextend.2
      obtain rfl := (Language.mem_one us).mp hu
      refine Takes.bind (Takes.expectWord _) fun _ vs hv => ?_
      rw [mem_word] at hv
      subst hv
      exact takes_extension start
    · exact Takes.refuse
    · split
      next kind _ =>
        refine Takes.map ((takes_typeDeclaration kind false start).mono fun block taken h => ?_)
        obtain ⟨htaken, hdeclaration, _⟩ := h
        exact ⟨append_mem_prod hu (mem_prod_singleton.mpr htaken), hdeclaration⟩
      next => exact Takes.refuse
  next => exact Takes.refuse

theorem takes_definition : definition.Takes fun definition taken =>
    taken ∈ definition.spelling ∧ definition.Grammatical := by
  refine Takes.bind takes_description fun described us hu => ?_
  exact Takes.bind_nextPlace fun next => takes_describedDefinition _ hu

theorem takes_definition? : definition?.Takes fun result taken =>
    result.elim (taken = []) fun definition =>
      taken ∈ definition.spelling ∧ definition.Grammatical := by
  refine Takes.bind_peek? fun next => ?_
  split
  next => exact Takes.pure rfl
  next => exact Takes.map takes_definition

/-- There are definitions as long as there are tokens. -/
theorem rest_eq_nil_of_definition? {cursor later : Cursor}
    (h : definition? cursor = .ok (none, later)) : cursor.rest = [] := by
  cases hrest : cursor.rest with
  | nil => rfl
  | cons token rest =>
    simp only [definition?, peek?, Bind.bind, hrest, List.head?_cons, Functor.map] at h
    split at h
    next => cases h
    next => cases h

end Parser

namespace Document

/-- A token list that is read as a document is a spelling of the document, from its first token to
its last, and the document is what the grammar asks for. -/
theorem mem_spelling_of_read {tokens : List Token} {document : Document Extent}
    (h : Document.read tokens = .ok document) :
    tokens ∈ document.spelling ∧ document.Grammatical := by
  unfold Document.read at h
  split at h
  next => cases h
  next hne =>
    split at h
    next definitions last hread =>
      cases h
      obtain ⟨hfine, us, hu, stop, hrest, -, hstop⟩ :=
        Parser.Takes.collect_eq_ok Parser.takes_definition? nil_not_mem_definition hread
      have htokens : tokens = us := by
        rw [Parser.rest_eq_nil_of_definition? hstop, List.append_nil] at hrest
        exact hrest
      subst htokens
      refine ⟨hu, ?_, hfine⟩
      intro hempty
      dsimp only at hempty
      rw [hempty, mem_each_nil] at hu
      exact hne hu
    next => cases h

/-- A token list that is read as a document is one of its spellings, the document is what the
grammar asks for, and no brackets in the list are empty but those of empty input objects. -/
theorem read_exact {tokens : List Token} {document : Document Extent}
    (h : Document.read tokens = .ok document) :
    tokens ∈ document.spelling ∧ document.Grammatical ∧
      emptyPairs .leftParen .rightParen tokens = 0 ∧
      emptyPairs .leftBrace .rightBrace tokens = document.emptyObjects := by
  obtain ⟨hspelling, hgrammatical⟩ := mem_spelling_of_read h
  have hbrackets : Bracketed document.emptyObjects tokens :=
    holds_document document tokens hspelling
  exact ⟨hspelling, hgrammatical, hbrackets.parens, hbrackets.braces⟩

/-- A leading mark, a block string, an empty input object and keywords as names are kept as they are
written. -/
theorem read_exact_union :
    let tokens := [Token.blockString "u", .name "union", .name "U", .punctuator .atSign,
      .name "on", .punctuator .leftParen, .name "of", .punctuator .colon,
      .punctuator .leftBrace, .punctuator .rightBrace, .punctuator .rightParen,
      .punctuator .equals, .punctuator .pipe, .name "type", .name "extend", .name "type",
      .name "type", .name "implements", .name "implements"]
    ∃ document : Document Extent, Document.read tokens = .ok document ∧
      tokens ∈ document.spelling ∧ document.emptyObjects = 1 := by
  intro tokens
  have hok : (Document.read tokens).isOk = true := by decide +kernel
  obtain ⟨document, h⟩ := exists_ok_of_isOk hok
  obtain ⟨hspelling, -, -, hbraces⟩ := read_exact h
  exact ⟨document, h, hspelling, hbraces.symm⟩

end Document

end SdlGraph
