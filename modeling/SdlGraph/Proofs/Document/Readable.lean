import SdlGraph.Proofs.Document.Parts

/-!
# Every spelling is read

Whatever a grammatical document is written as, reading it gives the document back up to places. A
definition is told from others by its first word, its optional parts follow each other under marks
of their own, and the next definition starts with a string or another keyword than `implements`.
-/

namespace SdlGraph

open Spelling

/-- A body has parts wherever they stand. -/
theorem TypeBody.isEmpty_mapPlace {σ τ : Type} (f : σ → τ) (body : TypeBody σ) :
    (body.mapPlace f).isEmpty = body.isEmpty := by
  cases body <;> simp [mapPlace, isEmpty, interfaces, fields, inputFields, members, values]

namespace Parser

/-- A rest that goes on with no definition before it. -/
structure EndsDefinition (rest : List Token) : Prop where
  /-- No part of a definition is introduced by its first token. -/
  marks : HeadOutside [.amp, .leftParen, .equals, .atSign, .leftBrace, .pipe] rest
  /-- No interfaces follow. -/
  word : WordOutside "implements" rest

theorem recovers_fields : fields.Recovers (fun read => read.1.map (Field.mapPlace noPlace))
    (block Field.spelling .leftBrace .rightBrace)
    (fun fields => ∀ field ∈ fields, field.Grammatical) [.leftBrace] :=
  recovers_field.delimited (fun field us hu => head_described hu) (by decide)

theorem recovers_enumValues : (delimited .leftBrace .rightBrace enumValue).Recovers
    (fun read => read.1.map (EnumValue.mapPlace noPlace))
    (block EnumValue.spelling .leftBrace .rightBrace)
    (fun values => ∀ value ∈ values, value.Grammatical) [.leftBrace] :=
  recovers_enumValue.delimited (fun value us hu => head_described hu) (by decide)

theorem recovers_inputFields :
    (delimited .leftBrace .rightBrace (inputValue .inputFieldName)).Recovers
      (fun read => read.1.map (InputValue.mapPlace noPlace))
      (block InputValue.spelling .leftBrace .rightBrace)
      (fun fields => ∀ field ∈ fields, field.Grammatical) [.leftBrace] :=
  (recovers_inputValue _).delimited (fun field us hu => head_described hu) (by decide)

/-- Directives are followed by a part with a mark of its own, or by the end of the definition. -/
theorem reads_directives {uses : List (DirectiveUse Unit)} {written : Punctuator}
    {us vs rest : List Token} (hfine : ∀ use ∈ uses, use.Grammatical)
    (hu : us ∈ each DirectiveUse.spelling uses)
    (hv : HeadMark written vs)
    (hmark : written ∉ [Punctuator.atSign, .leftParen]) (hrest : EndsDefinition rest) :
    directives.Reads us (vs ++ rest) fun read =>
      read.map (DirectiveUse.mapPlace noPlace) = uses :=
  recovers_directives uses hfine us hu _
    ((hv.outside hmark).append (hrest.marks.mono (by decide)))

/-- The interfaces, directives and fields of an object or interface type. -/
theorem reads_composite {names : List (Located Unit String)} {uses : List (DirectiveUse Unit)}
    {fields : List (Field Unit)} {make : List (Located Extent String) → List (Field Extent) →
      TypeBody Extent} {ts rest : List Token}
    (hts : ts ∈ [TypeBody.interfacesSpelling names, each DirectiveUse.spelling uses,
      block Field.spelling .leftBrace .rightBrace fields].prod)
    (huses : ∀ use ∈ uses, use.Grammatical) (hfields : ∀ field ∈ fields, field.Grammatical)
    (hrest : EndsDefinition rest) :
    Reads (do
      let interfaces ← interfaces
      let directives ← directives
      let (fields, block) ← Parser.fields
      pure (directives, make interfaces fields, block)) ts rest fun read =>
        ∃ readNames readFields, read.2.1 = make readNames readFields ∧
          readNames.map (Located.mapPlace noPlace) = names ∧
          read.1.map (DirectiveUse.mapPlace noPlace) = uses ∧
          readFields.map (Field.mapPlace noPlace) = fields := by
  obtain ⟨us, hu, vs, hv, rfl⟩ := mem_prod_cons.mp hts
  obtain ⟨ws, hw, xs, hx, rfl⟩ := mem_prod_cons.mp hv
  rw [mem_prod_singleton] at hx
  have hmark : HeadOutside [.amp] (ws ++ xs ++ rest) :=
    (((head_directives hw).outside (by decide)).append
      ((head_block hx).outside (by decide))).append (hrest.marks.mono (by decide))
  have hword : WordOutside "implements" (ws ++ xs ++ rest) :=
    ((head_directives hw).wordOutside.append (head_block hx).wordOutside).append hrest.word
  have hinterfaces := reads_interfaces hu hmark hword
  have hdirectives := reads_directives huses hw (head_block hx) (by decide) hrest
  have hblock := recovers_fields fields hfields xs hx rest (hrest.marks.mono (by decide))
  refine Reads.bind hinterfaces fun readNames hreadNames => ?_
  refine Reads.bind hdirectives fun readUses hreadUses => ?_
  refine Reads.bind_last hblock fun ⟨readFields, block⟩ hreadFields => ?_
  exact Reads.pure ⟨readNames, readFields, rfl, hreadNames, hreadUses, hreadFields⟩

/-- The directives of a type and the one part that follows them under a mark of its own. -/
theorem reads_marked {α : Type} {part : Parser α} {make : α → TypeBody Extent × Option Extent}
    {body : TypeBody Unit} {uses : List (DirectiveUse Unit)} {written : Punctuator}
    {us vs rest : List Token} (huses : ∀ use ∈ uses, use.Grammatical)
    (hu : us ∈ each DirectiveUse.spelling uses) (hv : HeadMark written vs)
    (hmark : written ∉ [Punctuator.atSign, .leftParen]) (hrest : EndsDefinition rest)
    (hpart : part.Reads vs rest fun read => (make read).1.mapPlace noPlace = body) :
    Reads (do
      let directives ← directives
      let content ← part
      pure (directives, make content)) (us ++ vs) rest fun read =>
        read.1.map (DirectiveUse.mapPlace noPlace) = uses ∧ read.2.1.mapPlace noPlace = body := by
  have hdirectives := reads_directives huses hu hv hmark hrest
  refine Reads.bind hdirectives fun readUses hreadUses => ?_
  refine Reads.bind_last hpart fun content hcontent => ?_
  exact Reads.pure ⟨hreadUses, hcontent⟩

/-- What follows the name of a type is read by its kind. -/
theorem reads_typeBody {uses : List (DirectiveUse Unit)} {body : TypeBody Unit}
    {ts rest : List Token} (hts : ts ∈ body.tailSpelling uses)
    (huses : ∀ use ∈ uses, use.Grammatical) (hbody : body.Grammatical)
    (hrest : EndsDefinition rest) :
    (typeBody body.kind).Reads ts rest fun read =>
      read.1.map (DirectiveUse.mapPlace noPlace) = uses ∧ read.2.1.mapPlace noPlace = body := by
  cases body with
  | object names fields =>
    refine (reads_composite hts huses hbody.fields hrest).mono fun read h => ?_
    obtain ⟨readNames, readFields, hread, hnames, hreadUses, hfields⟩ := h
    rw [hread, TypeBody.mapPlace, hnames, hfields]
    exact ⟨hreadUses, rfl⟩
  | interface names fields =>
    refine (reads_composite hts huses hbody.fields hrest).mono fun read h => ?_
    obtain ⟨readNames, readFields, hread, hnames, hreadUses, hfields⟩ := h
    rw [hread, TypeBody.mapPlace, hnames, hfields]
    exact ⟨hreadUses, rfl⟩
  | union names =>
    obtain ⟨us, hu, vs, hv, rfl⟩ := mem_prod_cons.mp (mem_prod_one_cons.mp hts)
    rw [mem_prod_singleton] at hv
    have hmembers := recovers_unionMembers names trivial vs hv rest
      (hrest.marks.mono (by decide))
    exact reads_marked huses hu (head_members hv) (by decide) hrest
      (hmembers.mono fun read hr => congrArg TypeBody.union hr)
  | enum values =>
    obtain ⟨us, hu, vs, hv, rfl⟩ := mem_prod_cons.mp (mem_prod_one_cons.mp hts)
    rw [mem_prod_singleton] at hv
    have hvalues := recovers_enumValues values hbody.values vs hv rest
      (hrest.marks.mono (by decide))
    exact reads_marked huses hu (head_block hv) (by decide) hrest
      (hvalues.mono fun read hr => congrArg TypeBody.enum hr)
  | inputObject fields =>
    obtain ⟨us, hu, vs, hv, rfl⟩ := mem_prod_cons.mp (mem_prod_one_cons.mp hts)
    rw [mem_prod_singleton] at hv
    have hfields := recovers_inputFields fields hbody.inputFields vs hv rest
      (hrest.marks.mono (by decide))
    exact reads_marked huses hu (head_block hv) (by decide) hrest
      (hfields.mono fun read hr => congrArg TypeBody.inputObject hr)
  | scalar =>
    obtain ⟨us, hu, vs, hv, rfl⟩ := mem_prod_cons.mp (mem_prod_one_cons.mp hts)
    rw [mem_prod_singleton] at hv
    rw [(Language.mem_one vs).mp hv, List.append_nil]
    have hdirectives := recovers_directives uses huses us hu rest
      (hrest.marks.mono (by decide))
    refine Reads.bind_last hdirectives fun readUses hreadUses => ?_
    exact Reads.pure ⟨hreadUses, rfl⟩

/-- A type declaration is got back at its keyword, whichever of its optional parts are written. -/
theorem reads_typeDeclaration {declaration : TypeDeclaration Unit} {isExtension : Bool}
    {ts rest : List Token} (start : Extent) (hts : ts ∈ declaration.spelling)
    (hfine : declaration.Grammatical)
    (hadds : isExtension = true →
      declaration.directives ≠ [] ∨ declaration.body.isEmpty = false)
    (hrest : EndsDefinition rest) :
    (typeDeclaration declaration.kind isExtension start).Reads ts rest fun read =>
      read.mapPlace noPlace = declaration := by
  obtain ⟨name, uses, body, place⟩ := declaration
  obtain ⟨_, rfl, us, hu, rfl⟩ := mem_prod_cons.mp hts
  obtain ⟨_, rfl, vs, hv, rfl⟩ := mem_prod_cons.mp hu
  have hparts := reads_typeBody hv hfine.directives hfine.body hrest
  refine Reads.bind Reads.expectWord fun _ _ => ?_
  refine Reads.committed (Reads.bind (reads_name name _) fun readName hname => ?_)
  refine Reads.bind_last hparts fun ⟨readUses, readBody, block⟩ ⟨huses, hbody⟩ => ?_
  have hsome : (isExtension && readUses.isEmpty && readBody.isEmpty) = false := by
    cases isExtension with
    | false => rfl
    | true =>
      subst huses hbody
      rcases hadds rfl with huses | hbody
      · have hreadUses : readUses.isEmpty = false := by simpa using huses
        rw [hreadUses]
        rfl
      · have hreadBody : readBody.isEmpty = false := by
          rw [← TypeBody.isEmpty_mapPlace noPlace readBody]
          exact hbody
        rw [hreadBody, Bool.and_false]
  dsimp only
  rw [hsome]
  refine Reads.pure ?_
  rw [TypeDeclaration.mapPlace, hname, huses, hbody]

/-- A root operation is got back whatever follows it. -/
theorem recovers_rootOperation : rootOperation.Recovers (RootOperation.mapPlace noPlace)
    RootOperation.spelling (fun _ => True) [] := by
  intro ⟨operation, type⟩ _ ts hts rest hrest
  obtain ⟨_, rfl, us, hu, rfl⟩ := mem_prod_cons.mp hts
  obtain ⟨_, rfl, vs, hv, rfl⟩ := mem_prod_cons.mp hu
  rw [mem_prod_singleton] at hv
  have hvalue : Token.operation? (.name operation.value.keyword) = some operation.value :=
    OperationKind.ofKeyword?_eq_some_iff.mpr rfl
  have hword : (take .operation Token.operation?).Reads
      [.name operation.value.keyword] ([.punctuator .colon] ++ vs ++ rest)
      fun read => read.value = operation.value := Reads.take hvalue
  have htail : Reads (do let _ ← expect .colon; name .typeName) ([.punctuator .colon] ++ vs) rest
      fun read => read.mapPlace noPlace = type :=
    Reads.bind Reads.expect fun _ _ => recovers_name _ type trivial vs hv rest hrest
  refine Reads.bind hword fun readOperation hoperation => ?_
  refine Reads.bind_last htail.committed fun readType htype => ?_
  refine Reads.pure ?_
  rw [RootOperation.mapPlace, htype, Located.mapPlace, hoperation]

/-- A schema block is got back at its keyword. -/
theorem reads_schemaBlock {schema : SchemaBlock Unit} {isExtension : Bool} {ts rest : List Token}
    (start : Extent) (hts : ts ∈ schema.spelling)
    (huses : ∀ use ∈ schema.directives, use.Grammatical)
    (hnames : schema.operations ≠ [] ∨ isExtension = true ∧ schema.directives ≠ [])
    (hrest : EndsDefinition rest) :
    (schemaBlock isExtension start).Reads ts rest fun read => read.mapPlace noPlace = schema := by
  obtain ⟨uses, operations, place⟩ := schema
  obtain ⟨_, rfl, us, hu, rfl⟩ := mem_prod_cons.mp hts
  obtain ⟨vs, hv, ws, hw, rfl⟩ := mem_prod_cons.mp hu
  rw [mem_prod_singleton] at hw
  have hroots : (delimited .leftBrace .rightBrace rootOperation).Reads ws rest fun read =>
      read.1.map (RootOperation.mapPlace noPlace) = operations ∧
        (read.2 = none ↔ operations = []) := by
    refine recovers_rootOperation.reads_delimited (fun root us hu => ?_) (by decide)
      (fun _ _ => trivial) hw (hrest.marks.mono (by decide))
    obtain ⟨_, rfl, vs, -, rfl⟩ := mem_prod_cons.mp hu
    exact ⟨List.cons_ne_nil _ _, HeadOutside.name⟩
  have hdirectives := reads_directives huses hv (head_block hw) (by decide) hrest
  refine Reads.bind Reads.expectWord fun _ _ => ?_
  refine Reads.committed (Reads.bind hdirectives fun readUses hreadUses => ?_)
  refine Reads.bind_last hroots fun ⟨readRoots, block⟩ ⟨hreadRoots, hblock⟩ => ?_
  dsimp only at hreadRoots hblock ⊢
  have hsome : (block.isNone && !(isExtension && !readUses.isEmpty)) = false := by
    subst hreadUses
    rcases hnames with hnames | ⟨hextension, hadds⟩
    · have hbraces : block.isSome := Option.isSome_iff_ne_none.mpr fun h => hnames (hblock.mp h)
      rw [Option.isNone_eq_false_iff.mpr hbraces, Bool.false_and]
    · have hreadUses : readUses.isEmpty = false := by simpa using hadds
      rw [hreadUses, hextension, Bool.not_false, Bool.and_self, Bool.not_true, Bool.and_false]
  rw [hsome]
  refine Reads.pure ?_
  rw [SchemaBlock.mapPlace, hreadUses, hreadRoots]

theorem recovers_directiveLocation : directiveLocation.Recovers (Located.mapPlace noPlace)
    Located.locationSpelling (fun _ => True) [] := by
  intro location _ ts hts rest _
  rw [show ts = _ from hts]
  have hvalue : Token.location? (.name location.value.name) = some location.value :=
    DirectiveLocation.ofName?_eq_some_iff.mpr rfl
  have hword : directiveLocation.Reads [.name location.value.name] rest
      fun read => read.value = location.value := Reads.take hvalue
  refine hword.mono fun read hr => ?_
  rw [Located.mapPlace, hr]

/-- A directive declaration is got back at its keyword. Its name may be any word, since the words
that may follow it are looked for only after its arguments. -/
theorem reads_directiveDeclaration {declaration : DirectiveDeclaration Unit} {ts rest : List Token}
    (start : Extent) (hts : ts ∈ declaration.spelling) (hfine : declaration.Grammatical)
    (hrest : EndsDefinition rest) :
    (directiveDeclaration start).Reads ts rest fun read =>
      read.mapPlace noPlace = declaration := by
  obtain ⟨name, arguments, isRepeatable, locations, place⟩ := declaration
  obtain ⟨_, rfl, us, hu, rfl⟩ := mem_prod_cons.mp hts
  obtain ⟨_, rfl, vs, hv, rfl⟩ := mem_prod_cons.mp hu
  obtain ⟨_, rfl, ws, hw, rfl⟩ := mem_prod_cons.mp hv
  obtain ⟨as, ha, xs, hx, rfl⟩ := mem_prod_cons.mp hw
  obtain ⟨bs, hb, ys, hy, rfl⟩ := mem_prod_cons.mp hx
  obtain ⟨_, rfl, zs, hz, rfl⟩ := mem_prod_cons.mp hy
  obtain ⟨cs, hc, ds, hd, rfl⟩ := mem_prod_cons.mp hz
  rw [mem_prod_singleton] at hd
  have hlocations : HeadOutside [.pipe] (ds ++ rest) := by
    refine head_separated (fun location us hu => ?_) hfine.locations hd rest
    rw [show us = _ from hu]
    exact ⟨List.cons_ne_nil _ _, HeadOutside.name⟩
  have hrepeatable : (eatWord "repeatable").Reads bs ([.name "on"] ++ (cs ++ ds) ++ rest)
      (fun eaten => eaten = isRepeatable) ∧ HeadOutside [.leftParen] bs := by
    cases isRepeatable with
    | true =>
      rw [show bs = _ from hb]
      exact ⟨Reads.eatWord, HeadOutside.name⟩
    | false =>
      rw [(Language.mem_one bs).mp hb]
      exact ⟨Reads.eatWord_false (by simp), HeadOutside.nil⟩
  have hparen : HeadOutside [.leftParen] (bs ++ ([.name "on"] ++ (cs ++ ds)) ++ rest) :=
    (hrepeatable.2.append HeadOutside.name).append (hrest.marks.mono (by decide))
  have hdefinitions := recovers_argumentDefinitions arguments hfine.arguments as ha _ hparen
  have hmore := recovers_directiveLocation.separated locations
    ⟨hfine.locations, fun _ _ => trivial⟩ ds hd rest (hrest.marks.mono (by decide))
  refine Reads.bind Reads.expectWord fun _ _ => ?_
  refine Reads.committed (Reads.bind Reads.expect fun _ _ => ?_)
  refine Reads.bind (reads_name name _) fun readName hname => ?_
  refine Reads.bind hdefinitions fun readArguments harguments => ?_
  refine Reads.bind hrepeatable.1 fun readRepeatable hreadRepeatable => ?_
  refine Reads.bind Reads.expectWord fun _ _ => ?_
  refine Reads.bind (Reads.eat_optional hc hlocations) fun _ _ => ?_
  refine Reads.bind_last hmore fun readLocations hreadLocations => Reads.pure ?_
  rw [DirectiveDeclaration.mapPlace, hname, harguments, hreadRepeatable, hreadLocations]

/-- The keyword of a type is no other keyword that starts a definition. -/
theorem keyword_apart (kind : TypeKind) : kind.keyword ≠ "schema" ∧ kind.keyword ≠ "directive" ∧
    kind.keyword ≠ "extend" ∧
    kind.keyword ∉ ["query", "mutation", "subscription", "fragment"] := by
  cases kind <;> decide

/-- An extension of the schema is got back after its keyword. -/
theorem reads_extendSchema {schema : SchemaBlock Unit} {ts rest : List Token} (start : Extent)
    (hts : ts ∈ schema.spelling) (hfine : (Definition.extendSchema schema).Grammatical)
    (hrest : EndsDefinition rest) :
    (extension start).Reads ts rest fun read => read.mapPlace noPlace = .extendSchema schema := by
  have hblock : (schemaBlock true start).Reads ts rest fun read =>
      read.mapPlace noPlace = schema :=
    reads_schemaBlock start hts hfine.1 (hfine.2.symm.imp_right fun h => ⟨rfl, h⟩) hrest
  obtain ⟨_, rfl, us, -, rfl⟩ := mem_prod_cons.mp hts
  refine Reads.bind_peek? ?_
  refine Reads.map (hblock.mono fun read hr => ?_)
  rw [Definition.mapPlace, hr]

/-- An extension of a type is got back after its keyword. -/
theorem reads_extendType {declaration : TypeDeclaration Unit} {ts rest : List Token}
    (start : Extent) (hts : ts ∈ declaration.spelling)
    (hfine : (Definition.extendType declaration).Grammatical)
    (hrest : EndsDefinition rest) :
    (extension start).Reads ts rest fun read =>
      read.mapPlace noPlace = .extendType declaration := by
  have hdeclaration : (typeDeclaration declaration.kind true start).Reads ts rest fun read =>
      read.mapPlace noPlace = declaration :=
    reads_typeDeclaration start hts hfine.1 (fun _ => hfine.2) hrest
  obtain ⟨_, rfl, us, -, rfl⟩ := mem_prod_cons.mp hts
  refine Reads.bind_peek? ?_
  split
  next he => exact absurd (Option.some.inj he) (keyword_apart _).1
  next word _ he =>
    obtain rfl : declaration.kind.keyword = word := Option.some.inj he
    rw [TypeKind.ofKeyword?_keyword]
    refine Reads.map (hdeclaration.mono fun read hr => ?_)
    rw [Definition.mapPlace, hr]
  next he => cases he

/-- A definition goes on after its description. -/
theorem reads_described {described : Option (Located Unit String)} {word : String}
    {us vs rest : List Token} {post : Definition Extent → Prop} (hu : us ∈ describing described)
    (h : ∀ start read, read.map (Located.mapPlace noPlace) = described →
      (describedDefinition start read).Reads ([.name word] ++ vs) rest post) :
    definition.Reads (us ++ ([.name word] ++ vs)) rest post := by
  refine Reads.bind (reads_description hu) fun read hread => ?_
  exact Reads.look Reads.nextPlace fun next _ => h _ read hread

/-- The keyword of an extension comes without a description before it. -/
theorem reads_extend {ts rest : List Token} {post : Definition Extent → Prop}
    (h : ∀ start, (extension start).Reads ts rest post) :
    definition.Reads ([.name "extend"] ++ ts) rest post := by
  have hnone : ([] : List Token) ∈ describing (none : Option (Located Unit String)) := rfl
  refine reads_described hnone fun start read hread => ?_
  obtain rfl : read = none := Option.map_eq_none_iff.mp hread
  refine Reads.bind_peek? ?_
  exact Reads.bind Reads.expectWord fun _ _ => h start

/-- What follows a description is told apart by its first word. -/
theorem reads_definition {definition : Definition Unit} {ts rest : List Token}
    (hts : ts ∈ definition.spelling) (hfine : definition.Grammatical)
    (hrest : EndsDefinition rest) :
    Parser.definition.Reads ts rest fun read => read.mapPlace noPlace = definition := by
  cases definition with
  | schema described schema =>
    obtain ⟨us, hu, vs, hv, rfl⟩ := mem_prod_cons.mp hts
    rw [mem_prod_singleton] at hv
    have hblock (start : Extent) : (schemaBlock false start).Reads vs rest fun read =>
        read.mapPlace noPlace = schema :=
      reads_schemaBlock start hv hfine.1 (.inl hfine.2) hrest
    obtain ⟨_, rfl, ws, -, rfl⟩ := mem_prod_cons.mp hv
    refine reads_described hu fun start read hdescribed => ?_
    refine Reads.bind_peek? ?_
    refine Reads.map ((hblock start).mono fun readBlock hr => ?_)
    rw [Definition.mapPlace, hdescribed, hr]
  | directive described declaration =>
    obtain ⟨us, hu, vs, hv, rfl⟩ := mem_prod_cons.mp hts
    rw [mem_prod_singleton] at hv
    have hdeclaration (start : Extent) := reads_directiveDeclaration start hv hfine hrest
    obtain ⟨_, rfl, ws, -, rfl⟩ := mem_prod_cons.mp hv
    refine reads_described hu fun start read hdescribed => ?_
    refine Reads.bind_peek? ?_
    refine Reads.map ((hdeclaration start).mono fun readDeclaration hr => ?_)
    rw [Definition.mapPlace, hdescribed, hr]
  | type described declaration =>
    obtain ⟨us, hu, vs, hv, rfl⟩ := mem_prod_cons.mp hts
    rw [mem_prod_singleton] at hv
    have hdeclaration (start : Extent) :
        (typeDeclaration declaration.kind false start).Reads vs rest fun read =>
          read.mapPlace noPlace = declaration :=
      reads_typeDeclaration start hv hfine nofun hrest
    obtain ⟨_, rfl, ws, -, rfl⟩ := mem_prod_cons.mp hv
    refine reads_described hu fun start read hdescribed => ?_
    refine Reads.bind_peek? ?_
    obtain ⟨hschema, hdirective, hextend, hexecutable⟩ := keyword_apart declaration.kind
    simp only [List.cons_append, List.head?_cons]
    rw [if_neg hschema, if_neg hdirective, if_neg fun h => hextend h.1, if_neg hexecutable,
      TypeKind.ofKeyword?_keyword]
    refine Reads.map ((hdeclaration start).mono fun readDeclaration hr => ?_)
    rw [Definition.mapPlace, hdescribed, hr]
  | extendSchema schema =>
    obtain ⟨_, rfl, vs, hv, rfl⟩ := mem_prod_cons.mp hts
    rw [mem_prod_singleton] at hv
    exact reads_extend fun start => reads_extendSchema start hv hfine hrest
  | extendType declaration =>
    obtain ⟨_, rfl, vs, hv, rfl⟩ := mem_prod_cons.mp hts
    rw [mem_prod_singleton] at hv
    exact reads_extend fun start => reads_extendType start hv hfine hrest

/-- A definition or extension starts with a string or a keyword, and so ends the one before it. -/
theorem endsDefinition_of_spelling {definition : Definition Unit} {ts : List Token}
    (hts : ts ∈ definition.spelling) (later : List Token) : EndsDefinition (ts ++ later) := by
  have hword (word : String) (us : List Token) (hne : word ≠ "implements") :
      EndsDefinition ([.name word] ++ us) :=
    ⟨HeadOutside.name, fun he => hne (by simpa using he)⟩
  have hdescribed (described : Option (Located Unit String)) (word : String)
      (hne : word ≠ "implements") (us : List Token) (hu : us ∈ describing described)
      (vs : List Token) : EndsDefinition (us ++ ([.name word] ++ vs) ++ later) := by
    cases described with
    | none =>
      rw [(Language.mem_one us).mp hu]
      exact hword word _ hne
    | some written =>
      rcases mem_text.mp hu with rfl | rfl
      · exact ⟨fun _ _ => nofun, nofun⟩
      · exact ⟨fun _ _ => nofun, nofun⟩
  cases definition with
  | schema described schema =>
    obtain ⟨us, hu, vs, hv, rfl⟩ := mem_prod_cons.mp hts
    obtain ⟨_, rfl, ws, -, rfl⟩ := mem_prod_cons.mp (mem_prod_singleton.mp hv)
    exact hdescribed described _ (by decide) us hu ws
  | directive described declaration =>
    obtain ⟨us, hu, vs, hv, rfl⟩ := mem_prod_cons.mp hts
    obtain ⟨_, rfl, ws, -, rfl⟩ := mem_prod_cons.mp (mem_prod_singleton.mp hv)
    exact hdescribed described _ (by decide) us hu ws
  | type described declaration =>
    obtain ⟨us, hu, vs, hv, rfl⟩ := mem_prod_cons.mp hts
    obtain ⟨_, rfl, ws, -, rfl⟩ := mem_prod_cons.mp (mem_prod_singleton.mp hv)
    have hkeyword : declaration.kind.keyword ≠ "implements" := by
      cases declaration.kind <;> decide
    exact hdescribed described _ hkeyword us hu ws
  | extendSchema schema =>
    obtain ⟨_, rfl, vs, -, rfl⟩ := mem_prod_cons.mp hts
    exact hword _ _ (by decide)
  | extendType declaration =>
    obtain ⟨_, rfl, vs, -, rfl⟩ := mem_prod_cons.mp hts
    exact hword _ _ (by decide)

/-- The definitions of a document are read one after the other up to the end of the tokens. -/
theorem reads_definitions {definitions : List (Definition Unit)} {ts : List Token}
    (hfine : ∀ definition ∈ definitions, definition.Grammatical)
    (hts : ts ∈ each Definition.spelling definitions) :
    (collect definition?).Reads ts [] fun read =>
      read.map (Definition.mapPlace noPlace) = definitions := by
  have hstep (definition : Definition Unit) (hdefinition : definition.Grammatical)
      (us : List Token) (hu : us ∈ definition.spelling) (later : List Token)
      (hlater : EndsDefinition later) : definition?.Reads us later fun result =>
        result.map (Definition.mapPlace noPlace) = some definition := by
    refine Reads.bind_peek? ?_
    have hread := reads_definition hu hdefinition hlater
    cases us with
    | nil => exact absurd hu (nil_not_mem_definition definition)
    | cons token us =>
      refine Reads.map (hread.mono fun read hr => ?_)
      rw [Option.map_some, hr]
  have hend : EndsDefinition ([] ++ []) := ⟨HeadOutside.nil, nofun⟩
  have hstop : definition?.Reads [] [] fun result => result = none :=
    Reads.look Reads.peek? fun next hn => by
      subst hn
      exact Reads.pure rfl
  have hcollect : (collect definition?).Reads (ts ++ []) [] fun read =>
      read.map (Definition.mapPlace noPlace) = definitions := by
    refine Recovers.collect hstep (fun definition us hu => ?_) hend hstop hfine hts
    exact ⟨fun hnil => nil_not_mem_definition definition (hnil ▸ hu),
      endsDefinition_of_spelling hu⟩
  rwa [List.append_nil] at hcollect

end Parser

namespace Document

/-- Whichever of its spellings a grammatical document is written as, it is read back from it up to
places. -/
theorem read_spelling {document : Document Unit} (hgrammatical : document.Grammatical)
    {tokens : List Token} (hspelling : tokens ∈ document.spelling) :
    ∃ read, Document.read tokens = .ok read ∧ read.mapPlace noPlace = document := by
  obtain ⟨definitions⟩ := document
  obtain ⟨read, hr, hread⟩ :=
    Parser.reads_definitions hgrammatical.definitions hspelling 0
  refine ⟨⟨read⟩, ?_, congrArg Document.mk hread⟩
  rw [List.append_nil] at hr
  cases tokens with
  | nil =>
    cases definitions with
    | nil => exact absurd rfl hgrammatical.definitions_ne_nil
    | cons first rest =>
      exact absurd (nil_mem_prod_cons.mp hspelling).1 (nil_not_mem_definition first)
  | cons token tokens => simp only [Document.read, hr]

/-- A type without braces before the next definition, and a default value that is a string before
the description of the next field, are kept apart. -/
theorem read_spelling_siblings : ∃ read, Document.read [.name "type", .name "implements",
    .name "input", .name "on", .punctuator .leftBrace, .name "a", .punctuator .colon,
    .name "String", .punctuator .equals, .stringValue "x", .blockString "y", .name "b",
    .punctuator .colon, .name "Int", .punctuator .bang, .punctuator .rightBrace] = .ok read ∧
    read.mapPlace noPlace = ⟨[
      .type none ⟨⟨"implements", ()⟩, [], .object [] [], ()⟩,
      .type none ⟨⟨"on", ()⟩, [], .inputObject [
        ⟨none, ⟨"a", ()⟩, ⟨.named "String", (), ()⟩, some ⟨.string "x", ()⟩, []⟩,
        ⟨some ⟨"y", ()⟩, ⟨"b", ()⟩, ⟨.nonNull (.named "Int"), (), ()⟩, none, []⟩], ()⟩]⟩ := by
  refine read_spelling ⟨List.cons_ne_nil _ _, ?_⟩ ?_
  · have hnamed (name : String) : (TypeRef.named name).Grammatical := ⟨trivial, Nat.zero_le _⟩
    have hbanged (name : String) : (TypeRef.nonNull (.named name)).Grammatical :=
      ⟨⟨rfl, trivial⟩, Nat.zero_le _⟩
    have hstring (text : String) : (Value.string text).Grammatical := ⟨trivial, Nat.zero_le _⟩
    intro definition hd
    rcases List.mem_pair.mp hd with rfl | rfl
    · exact ⟨List.forall_mem_nil _, List.forall_mem_nil _, List.forall_mem_nil _,
        List.forall_mem_nil _⟩
    · refine ⟨List.forall_mem_nil _, List.forall_mem_nil _, fun field hf => ?_,
        List.forall_mem_nil _⟩
      rcases List.mem_pair.mp hf with rfl | rfl
      · exact ⟨hnamed _, fun written hw => Option.some.inj hw ▸ hstring _, List.forall_mem_nil _⟩
      · exact ⟨hbanged _, nofun, List.forall_mem_nil _⟩
  · simp [Document.spelling, each, Definition.spelling, describing, TypeDeclaration.spelling,
      TypeDeclaration.kind, TypeBody.kind, TypeKind.keyword, TypeBody.interfaces,
      TypeBody.interfacesSpelling, TypeBody.spelling, block, InputValue.spelling,
      InputValue.defaultSpelling, TypeRef.spelling, Value.spelling, Language.mem_mul, mem_word,
      mem_mark, mem_text, or_and_right, exists_or]

end Document

end SdlGraph
