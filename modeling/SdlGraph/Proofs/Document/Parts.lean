import SdlGraph.Proofs.Document.Lookahead

/-!
# The parts of definitions are got back

Each part of a definition is got back from its spellings before any rest that cannot go on with it.
What follows a part inside a spelling is always such a rest: the next item of a list starts with a
word or a string, and each optional part starts with a mark or keyword of its own.
-/

namespace SdlGraph

open Spelling

/-- Forget a place. -/
def noPlace (_ : Extent) : Unit := ()

namespace Value

/-- A constant other than a list or an input object is spelled by one token. -/
theorem token_of_spelling {value : Value} {ts : List Token} (hproper : value.EnumsProper)
    (hts : ts ∈ value.spelling) :
    (∃ items, value = list items) ∨ (∃ entries, value = object entries) ∨
      ∃ token : Token, ts = [token] ∧ token.value? = some value := by
  cases value with
  | list items => exact .inl ⟨items, rfl⟩
  | object entries => exact .inr (.inl ⟨entries, rfl⟩)
  | int text => exact .inr (.inr ⟨.intValue text, hts, rfl⟩)
  | float text => exact .inr (.inr ⟨.floatValue text, hts, rfl⟩)
  | string text =>
    rcases mem_text.mp hts with rfl | rfl
    · exact .inr (.inr ⟨.stringValue text, rfl, rfl⟩)
    · exact .inr (.inr ⟨.blockString text, rfl, rfl⟩)
  | boolean truth =>
    cases truth with
    | true => exact .inr (.inr ⟨.name "true", hts, rfl⟩)
    | false => exact .inr (.inr ⟨.name "false", hts, rfl⟩)
  | null => exact .inr (.inr ⟨.name "null", hts, rfl⟩)
  | enum name =>
    refine .inr (.inr ⟨.name name, hts, ?_⟩)
    simp only [EnumsProper, reservedWords, List.mem_cons, List.not_mem_nil, or_false,
      not_or] at hproper
    obtain ⟨htrue, hfalse, hnull⟩ := hproper
    unfold Token.value?
    split <;> simp_all

/-- No constant starts with a closing mark. -/
theorem head_spelling {value : Value} {ts : List Token} (hts : ts ∈ value.spelling) :
    ts ≠ [] ∧ HeadOutside [.rightBracket] ts := by
  refine ⟨fun h => nil_not_mem_value value (h ▸ hts), ?_⟩
  cases value with
  | list items =>
    obtain ⟨_, rfl, us, -, rfl⟩ := mem_prod_cons.mp hts
    exact HeadOutside.mark (by decide)
  | object entries =>
    obtain ⟨_, rfl, us, -, rfl⟩ := mem_prod_cons.mp hts
    exact HeadOutside.mark (by decide)
  | string text =>
    rcases mem_text.mp hts with rfl | rfl
    · exact fun _ _ => nofun
    · exact fun _ _ => nofun
  | boolean truth =>
    cases truth with
    | true =>
      rw [show ts = _ from hts]
      exact HeadOutside.name
    | false =>
      rw [show ts = _ from hts]
      exact HeadOutside.name
  | _ =>
    rw [show ts = _ from hts]
    exact fun _ _ => nofun

end Value

namespace Spelling

variable {σ : Type} {marks : List Punctuator} {ts : List Token}

/-- A part with a description in front starts with no mark. -/
theorem head_described {described : Option (Located σ String)} {name : String}
    {parts : List (Language Token)}
    (hts : ts ∈ (describing described :: word name :: parts).prod) :
    ts ≠ [] ∧ HeadOutside marks ts := by
  obtain ⟨us, hu, vs, hv, rfl⟩ := mem_prod_cons.mp hts
  obtain ⟨_, rfl, ws, -, rfl⟩ := mem_prod_cons.mp hv
  refine ⟨List.append_ne_nil_of_right_ne_nil _ (List.cons_ne_nil _ _), ?_⟩
  cases described with
  | none =>
    rw [(Language.mem_one us).mp hu]
    exact HeadOutside.name
  | some written =>
    rcases mem_text.mp hu with rfl | rfl
    · exact fun _ _ => nofun
    · exact fun _ _ => nofun

/-- Directives start with the mark of the first one. -/
theorem head_directives {uses : List (DirectiveUse σ)}
    (hts : ts ∈ each DirectiveUse.spelling uses) :
    HeadMark .atSign ts := by
  cases uses with
  | nil => exact .inl (mem_each_nil.mp hts)
  | cons use uses =>
    obtain ⟨us, hu, vs, -, rfl⟩ := mem_each_cons.mp hts
    obtain ⟨_, rfl, ws, -, rfl⟩ := mem_prod_cons.mp hu
    exact .inr ⟨_, rfl⟩

theorem head_default {default : Option (Located σ Value)}
    (hts : ts ∈ InputValue.defaultSpelling default) :
    HeadMark .equals ts := by
  cases default with
  | none => exact .inl ((Language.mem_one ts).mp hts)
  | some written =>
    obtain ⟨_, rfl, vs, -, rfl⟩ := mem_prod_cons.mp hts
    exact .inr ⟨_, rfl⟩

/-- A list between marks starts with the opening one. -/
theorem head_block {α : Type} {item : α → Language Token} {opening close : Punctuator}
    {items : List α} (hts : ts ∈ block item opening close items) :
    HeadMark opening ts := by
  cases items with
  | nil => exact .inl (mem_block_nil.mp hts)
  | cons first rest =>
    obtain ⟨us, -, rfl⟩ := (mem_block (List.cons_ne_nil _ _)).mp hts
    exact .inr ⟨_, rfl⟩

theorem head_members {names : List (Located σ String)}
    (hts : ts ∈ TypeBody.membersSpelling names) :
    HeadMark .equals ts := by
  cases names with
  | nil => exact .inl ((Language.mem_one ts).mp hts)
  | cons first rest =>
    obtain ⟨_, rfl, vs, -, rfl⟩ := mem_prod_cons.mp hts
    exact .inr ⟨_, rfl⟩

/-- A list of items that start with no mark starts with none. -/
theorem head_separated {α : Type} {item : α → Language Token} {between : Punctuator}
    {items : List α} (h : ∀ value, ∀ us ∈ item value, us ≠ [] ∧ HeadOutside marks us)
    (hne : items ≠ []) (hts : ts ∈ separated item between items) (rest : List Token) :
    HeadOutside marks (ts ++ rest) := by
  cases items with
  | nil => exact absurd rfl hne
  | cons first items =>
    obtain ⟨us, hu, vs, -, rfl⟩ := mem_prod_cons.mp hts
    obtain ⟨hus, hhead⟩ := h first us hu
    rw [List.append_assoc]
    exact hhead.append_right hus

end Spelling

namespace Parser

/-- A name is read whatever follows it. -/
theorem reads_name {expectation : Expectation} (written : Located Unit String) (rest : List Token) :
    (name expectation).Reads [.name written.value] rest
      fun read => read.mapPlace noPlace = written := by
  have hword : (name expectation).Reads [.name written.value] rest
      fun read => read.value = written.value := Reads.take rfl
  refine hword.mono fun read hr => ?_
  rw [Located.mapPlace, hr]

theorem recovers_name (expectation : Expectation) :
    (name expectation).Recovers (Located.mapPlace noPlace) Located.nameSpelling
      (fun _ => True) [] := by
  intro written _ ts hts rest _
  rw [show ts = _ from hts]
  exact reads_name written rest

/-- A description is told from the word that follows it. -/
theorem reads_description {described : Option (Located Unit String)} {word : String}
    {ts later : List Token} (hts : ts ∈ describing described) :
    description.Reads ts (.name word :: later) fun read =>
      read.map (Located.mapPlace noPlace) = described := by
  cases described with
  | none =>
    rw [(Language.mem_one ts).mp hts]
    have hword : ∀ token ∈ (Token.name word :: later).head?, token.text? = none := by
      intro token ht
      cases ht
      rfl
    refine (Reads.take?_none hword).mono fun result hr => ?_
    rw [hr]
    rfl
  | some written =>
    have htoken : ∃ token : Token, ts = [token] ∧ token.text? = some written.value := by
      rcases mem_text.mp hts with rfl | rfl
      · exact ⟨_, rfl, rfl⟩
      · exact ⟨_, rfl, rfl⟩
    obtain ⟨token, rfl, ht⟩ := htoken
    refine (Reads.take? ht).mono fun result hr => ?_
    cases result with
    | none => cases hr
    | some read => rw [Option.map_some, Located.mapPlace, Option.some.inj hr]

/-- A constant of one token is read with any number of levels left. -/
theorem reads_scalar {token : Token} {constant : Value} {rest : List Token} (levels : Nat)
    (h : token.value? = some constant) :
    (value levels).Reads [token] rest fun read => read.value = constant := by
  have hmark (mark : Punctuator) : token ≠ .punctuator mark := by
    intro he
    rw [he] at h
    cases h
  have hhead (mark : Punctuator) : ([token] ++ rest).head? ≠ some (.punctuator mark) :=
    fun he => hmark mark (Option.some.inj he)
  cases levels with
  | zero =>
    refine Reads.bind_peek? ?_
    split
    next he => exact absurd he (hhead _)
    next he => exact absurd he (hhead _)
    next => exact Reads.take h
  | succ levels =>
    refine Reads.ifNext_else (hhead _) ?_
    refine Reads.ifNext_else (hhead _) ?_
    exact Reads.take h

section

variable {levels : Nat} {content : Parser (Located Extent Value)}
  (ih : content.Recovers Located.value Value.spelling
    (fun constant => constant.EnumsProper ∧ constant.depth ≤ levels) [])

include ih

/-- The items of a list are read up to its closing mark. -/
theorem reads_listValue (start : Extent) {items : List Value} {us rest : List Token}
    (hfine : ∀ item ∈ items, item.EnumsProper ∧ item.depth ≤ levels)
    (hu : us ∈ each Value.spelling items) :
    (listValue content start).Reads (us ++ [.punctuator .rightBracket]) rest
      fun read => read.value = .list items := by
  have hitem : (Located.value <$> content).Recovers id Value.spelling
      (fun constant => constant.EnumsProper ∧ constant.depth ≤ levels) [] :=
    fun item hitem ts hts rest hrest => Reads.map (ih item hitem ts hts rest hrest)
  refine Reads.bind_last (hitem.reads_upTo (fun value us hu => Value.head_spelling hu) (by decide)
    hfine hu) fun ⟨read, stop⟩ hr => Reads.pure ?_
  exact congrArg Value.list ((List.map_id read).symm.trans hr)

/-- An entry of an input object is got back whatever follows it. -/
theorem recovers_objectEntry : (objectEntry content).Recovers id Value.entrySpelling
    (fun entry => entry.2.EnumsProper ∧ entry.2.depth ≤ levels) [] := by
  intro entry hentry ts hts rest hrest
  obtain ⟨_, rfl, us, hu, rfl⟩ := mem_prod_cons.mp hts
  obtain ⟨_, rfl, vs, hv, rfl⟩ := mem_prod_cons.mp hu
  rw [mem_prod_singleton] at hv
  have hcontent := ih entry.2 hentry vs hv rest hrest
  refine Reads.bind (Reads.take rfl) fun name hname => ?_
  refine Reads.bind Reads.expect fun _ _ => ?_
  refine Reads.bind_last hcontent fun read hr => Reads.pure ?_
  rw [hname, hr, id]

/-- The entries of an input object are read up to its closing mark. -/
theorem reads_objectValue (start : Extent) {entries : List (String × Value)} {us rest : List Token}
    (hfine : ∀ entry ∈ entries, entry.2.EnumsProper ∧ entry.2.depth ≤ levels)
    (hu : us ∈ each Value.entrySpelling entries) :
    (objectValue content start).Reads (us ++ [.punctuator .rightBrace]) rest
      fun read => read.value = .object entries := by
  have hstart : ∀ entry, ∀ us ∈ Value.entrySpelling entry,
      us ≠ [] ∧ HeadOutside [.rightBrace] us := by
    intro entry us hu
    obtain ⟨_, rfl, vs, -, rfl⟩ := mem_prod_cons.mp hu
    exact ⟨List.cons_ne_nil _ _, HeadOutside.name⟩
  refine Reads.bind_last ((recovers_objectEntry ih).reads_upTo hstart (by decide) hfine hu)
    fun ⟨read, stop⟩ hr => Reads.pure ?_
  exact congrArg Value.object ((List.map_id read).symm.trans hr)

end

/-- A constant is got back whenever the levels left suffice for it. -/
theorem recovers_value (levels : Nat) : (value levels).Recovers Located.value Value.spelling
    (fun constant => constant.EnumsProper ∧ constant.depth ≤ levels) [] := by
  induction levels with
  | zero =>
    intro constant ⟨hproper, hdepth⟩ ts hts rest _
    rcases Value.token_of_spelling hproper hts with ⟨items, rfl⟩ | ⟨entries, rfl⟩ | h
    · cases hdepth
    · cases hdepth
    · obtain ⟨token, rfl, ht⟩ := h
      exact reads_scalar 0 ht
  | succ levels ih =>
    intro constant ⟨hproper, hdepth⟩ ts hts rest _
    rcases Value.token_of_spelling hproper hts with ⟨items, rfl⟩ | ⟨entries, rfl⟩ | h
    · have hdepths := Value.itemsDepth_le_iff.mp (Nat.le_of_succ_le_succ hdepth)
      rw [Value.spelling, Value.itemsSpelling_eq_each] at hts
      obtain ⟨us, hu, rfl⟩ := mem_enclosed.mp hts
      refine Reads.ifNext fun start => (reads_listValue ih start (fun item hi => ?_) hu).committed
      exact ⟨Value.itemsProper_iff.mp hproper item hi, hdepths item hi⟩
    · have hdepths := Value.entriesDepth_le_iff.mp (Nat.le_of_succ_le_succ hdepth)
      rw [Value.spelling, Value.entriesSpelling_eq_each] at hts
      obtain ⟨us, hu, rfl⟩ := mem_enclosed.mp hts
      refine Reads.ifNext_else (by simp) (Reads.ifNext fun start => Reads.committed
        (reads_objectValue ih start (fun entry he => ?_) hu))
      exact ⟨Value.entriesProper_iff.mp hproper entry he, hdepths entry he⟩
    · obtain ⟨token, rfl, ht⟩ := h
      exact reads_scalar (levels + 1) ht

/-- A type and the exclamation mark after it, if there is one. -/
theorem reads_nullable {inner : Parser (TypeUse Extent)} {type : TypeRef}
    {us vs rest : List Token} {banged : Bool}
    (h : inner.Reads us (vs ++ rest) fun read => read.type = type)
    (hmark : vs = if banged then [.punctuator .bang] else [])
    (hrest : banged = false → HeadOutside [.bang] rest) :
    (typeRef.nullable inner).Reads (us ++ vs) rest
      fun read => read.type = if banged then .nonNull type else type := by
  refine Reads.bind h fun read hr => ?_
  subst hr
  cases banged with
  | true =>
    subst hmark
    exact Reads.ifNext fun bang => Reads.pure rfl
  | false =>
    subst hmark
    have hbang : rest.head? ≠ some (.punctuator .bang) := hrest rfl .bang List.mem_cons_self
    exact Reads.ifNext_else hbang (Reads.pure rfl)

/-- With some levels left, a type that has no exclamation mark yet is read together with the one
that may follow it. -/
def ReadsMarked (levels : Nat) : Prop :=
  ∀ type : TypeRef, type.isNonNull = false → type.NonNullApart → type.listDepth ≤ levels →
    ∀ us ∈ type.spelling, ∀ (banged : Bool) (vs rest : List Token),
      vs = (if banged then [.punctuator .bang] else []) →
      (banged = false → HeadOutside [.bang] rest) →
      (typeRef levels).Reads (us ++ vs) rest
        fun read => read.type = if banged then .nonNull type else type

/-- Exclamation marks do not follow each other, so reading types with and without one is enough. -/
theorem ReadsMarked.recovers {levels : Nat} (h : ReadsMarked levels) :
    (typeRef levels).Recovers TypeUse.type TypeRef.spelling
      (fun type => type.NonNullApart ∧ type.listDepth ≤ levels) [.bang] := by
  intro type ⟨hapart, hdepth⟩ ts hts rest hrest
  cases hnull : type.isNonNull with
  | false =>
    have hread := h type hnull hapart hdepth ts hts false [] rest rfl fun _ => hrest
    rwa [List.append_nil] at hread
  | true =>
    cases type with
    | named name => cases hnull
    | list element => cases hnull
    | nonNull inner =>
      obtain ⟨us, hu, vs, hv, rfl⟩ := mem_prod_cons.mp hts
      rw [mem_prod_singleton, mem_mark] at hv
      exact h inner hapart.1 hapart.2 hdepth us hu true vs rest hv nofun

theorem reads_namedType (name : String) (rest : List Token) :
    typeRef.namedType.Reads [.name name] rest fun read => read.type = .named name := by
  refine Reads.bind_last (reads_name ⟨name, ()⟩ rest) fun result hr => ?_
  exact Reads.pure (congrArg TypeRef.named (congrArg Located.value hr))

/-- A type is got back whenever the levels left suffice for its lists. -/
theorem recovers_typeRef (levels : Nat) : (typeRef levels).Recovers TypeUse.type TypeRef.spelling
    (fun type => type.NonNullApart ∧ type.listDepth ≤ levels) [.bang] := by
  induction levels with
  | zero =>
    refine ReadsMarked.recovers fun type hnull hapart hdepth us hu banged vs rest hmark hrest => ?_
    cases type with
    | named name =>
      obtain rfl : us = [.name name] := hu
      refine Reads.bind_peek? ?_
      exact reads_nullable (reads_namedType name _) hmark hrest
    | list element => cases hdepth
    | nonNull inner => cases hnull
  | succ levels ih =>
    refine ReadsMarked.recovers fun type hnull hapart hdepth us hu banged vs rest hmark hrest => ?_
    cases type with
    | named name =>
      obtain rfl : us = [.name name] := hu
      refine Reads.ifNext_else (by simp) ?_
      exact reads_nullable (reads_namedType name _) hmark hrest
    | list element =>
      obtain ⟨ws, hw, rfl⟩ := mem_enclosed.mp hu
      have hlist (start : Extent) : (typeRef.listType (typeRef levels) start).Reads
          (ws ++ [.punctuator .rightBracket]) (vs ++ rest)
          fun read => read.type = .list element := by
        have hapart' : element.NonNullApart ∧ element.listDepth ≤ levels :=
          ⟨hapart, Nat.le_of_succ_le_succ hdepth⟩
        refine Reads.bind (ih element hapart' ws hw _ (HeadOutside.mark (by decide)))
          fun read hr => ?_
        exact Reads.bind_last Reads.expect fun _ _ => Reads.pure (congrArg TypeRef.list hr)
      rw [List.append_assoc]
      exact Reads.ifNext fun start => reads_nullable (hlist start).committed hmark hrest
    | nonNull inner => cases hnull

/-- A type is got back unless an exclamation mark follows. -/
theorem recovers_typeUse : typeUse.Recovers (TypeUse.mapPlace noPlace)
    (fun use => use.type.spelling) (fun use => use.type.Grammatical) [.bang] := by
  intro use hfine ts hts rest hrest
  refine (recovers_typeRef nestingLimit use.type hfine ts hts rest hrest).mono fun read hr => ?_
  rw [TypeUse.mapPlace, hr]

/-- A constant is got back whatever follows it. -/
theorem recovers_constant : constant.Recovers (Located.mapPlace noPlace)
    (fun value => value.value.spelling) (fun value => value.value.Grammatical) [] := by
  intro value hfine ts hts rest hrest
  refine (recovers_value nestingLimit value.value hfine ts hts rest hrest).mono fun read hr => ?_
  rw [Located.mapPlace, hr]

/-- An argument given to a directive is got back whatever follows it. -/
theorem recovers_argument : argument.Recovers (Argument.mapPlace noPlace) Argument.spelling
    (fun argument => argument.value.value.Grammatical) [] := by
  intro ⟨name, value⟩ hfine ts hts rest hrest
  obtain ⟨us, hu, vs, hv, rfl⟩ := mem_prod_cons.mp hts
  obtain ⟨_, rfl, ws, hw, rfl⟩ := mem_prod_cons.mp hv
  rw [mem_prod_singleton] at hw
  refine Reads.bind (recovers_name _ name trivial us hu _ HeadOutside.noMarks) fun read hname => ?_
  refine Reads.bind Reads.expect fun _ _ => ?_
  refine Reads.bind_last (recovers_constant value hfine ws hw rest hrest) fun read hvalue => ?_
  refine Reads.pure ?_
  rw [Argument.mapPlace, hname, hvalue]

/-- Directives end where neither a further one nor arguments for the last one follow. -/
theorem recovers_directives : directives.Recovers (List.map (DirectiveUse.mapPlace noPlace))
    (each DirectiveUse.spelling) (fun uses => ∀ use ∈ uses, use.Grammatical)
    [.atSign, .leftParen] := by
  have hstart : ∀ argument : Argument Unit, ∀ us ∈ argument.spelling,
      us ≠ [] ∧ HeadOutside [.rightParen] us := by
    intro argument us hu
    obtain ⟨_, rfl, vs, -, rfl⟩ := mem_prod_cons.mp hu
    exact ⟨List.cons_ne_nil _ _, HeadOutside.name⟩
  have huse (use : DirectiveUse Unit) (hfine : use.Grammatical) (us : List Token)
      (hu : us ∈ use.spelling) (later : List Token) (hlater : HeadOutside [.leftParen] later) :
      directiveUse?.Reads us later fun result =>
        result.map (DirectiveUse.mapPlace noPlace) = some use := by
    obtain ⟨name, arguments, place⟩ := use
    obtain ⟨_, rfl, vs, hv, rfl⟩ := mem_prod_cons.mp hu
    obtain ⟨ws, hw, xs, hx, rfl⟩ := mem_prod_cons.mp hv
    rw [mem_prod_singleton] at hx
    refine Reads.ifNext fun start => Reads.map (Reads.committed ?_)
    refine Reads.bind (recovers_name _ name trivial ws hw _ HeadOutside.noMarks)
      fun read hname => ?_
    have hblock := recovers_argument.delimited hstart (by decide) arguments hfine xs hx later hlater
    refine Reads.bind_last hblock fun ⟨reads, block⟩ harguments => Reads.pure ?_
    dsimp only at harguments
    rw [Option.map_some, DirectiveUse.mapPlace, hname, harguments]
  intro uses hfine ts hts rest hrest
  have hstop : directiveUse?.Reads [] rest fun result => result = none := by
    exact Reads.ifNext_else (hrest .atSign (by decide)) (Reads.pure rfl)
  have hcollect : directives.Reads (ts ++ []) rest fun read =>
      read.map (DirectiveUse.mapPlace noPlace) = uses := by
    refine Recovers.collect huse (fun use us hu => ?_) (hrest.mono (by decide)) hstop hfine hts
    obtain ⟨_, rfl, vs, -, rfl⟩ := mem_prod_cons.mp hu
    exact ⟨List.cons_ne_nil _ _, fun later => HeadOutside.mark (by decide)⟩
  rwa [List.append_nil] at hcollect

/-- A default value, or none, is got back unless an equals sign follows. -/
theorem recovers_default : (following .equals fun _ => constant).Recovers
    (Option.map (Located.mapPlace noPlace)) InputValue.defaultSpelling
    (fun default => ∀ written ∈ default, written.value.Grammatical) [.equals] := by
  intro default hfine ts hts rest hrest
  cases default with
  | none =>
    rw [(Language.mem_one ts).mp hts]
    exact Reads.ifNext_else (hrest .equals List.mem_cons_self) (Reads.pure rfl)
  | some written =>
    obtain ⟨_, rfl, us, hu, rfl⟩ := mem_prod_cons.mp hts
    rw [mem_prod_singleton] at hu
    refine Reads.ifNext fun _ => ?_
    have hvalue := recovers_constant written (hfine written rfl) us hu rest HeadOutside.noMarks
    refine Reads.map (hvalue.mono fun read hr => ?_)
    rw [Option.map_some, hr]

/-- An input value is got back unless a mark of its optional parts follows. A description after it
belongs to its next sibling, even where its default value is a string. -/
theorem recovers_inputValue (expectation : Expectation) :
    (inputValue expectation).Recovers (InputValue.mapPlace noPlace) InputValue.spelling
      InputValue.Grammatical [.bang, .equals, .atSign, .leftParen] := by
  intro ⟨described, name, type, default, uses⟩ hfine ts hts rest hrest
  obtain ⟨us, hu, vs, hv, rfl⟩ := mem_prod_cons.mp hts
  obtain ⟨_, rfl, ws, hw, rfl⟩ := mem_prod_cons.mp hv
  obtain ⟨_, rfl, xs, hx, rfl⟩ := mem_prod_cons.mp hw
  obtain ⟨ys, hy, zs, hz, rfl⟩ := mem_prod_cons.mp hx
  obtain ⟨ds, hd, as, ha, rfl⟩ := mem_prod_cons.mp hz
  rw [mem_prod_singleton] at ha
  have hdirectives : HeadOutside [.bang, .equals] (as ++ rest) :=
    ((head_directives ha).outside (by decide)).append (hrest.mono (by decide))
  have hdefault : HeadOutside [.bang] ds := (head_default hd).outside (by decide)
  have htype : HeadOutside [.bang] (ds ++ as ++ rest) := by
    rw [List.append_assoc]
    exact hdefault.append (hdirectives.mono (by decide))
  have hreadType := recovers_typeUse type hfine.type ys hy _ htype
  have hreadDefault := recovers_default default hfine.default ds hd _
    (hdirectives.mono (by decide))
  have hreadUses := recovers_directives uses hfine.directives as ha rest (hrest.mono (by decide))
  refine Reads.bind (reads_description hu) fun read hdescribed => ?_
  refine Reads.bind (reads_name name _) fun read hname => ?_
  refine Reads.committed (Reads.bind Reads.expect fun _ _ => ?_)
  refine Reads.bind hreadType fun read htype => ?_
  refine Reads.bind hreadDefault fun read hdefault => ?_
  refine Reads.bind_last hreadUses fun read huses => ?_
  refine Reads.pure ?_
  rw [InputValue.mapPlace, hdescribed, hname, htype, hdefault, huses]

theorem recovers_argumentDefinitions : argumentDefinitions.Recovers
    (List.map (InputValue.mapPlace noPlace)) (block InputValue.spelling .leftParen .rightParen)
    (fun arguments => ∀ argument ∈ arguments, argument.Grammatical) [.leftParen] :=
  fun arguments hfine ts hts rest hrest => Reads.map ((recovers_inputValue _).delimited
    (fun argument us hu => head_described hu) (by decide) arguments hfine ts hts rest hrest)

/-- A field is got back unless a mark of its optional parts follows. -/
theorem recovers_field : field.Recovers (Field.mapPlace noPlace) Field.spelling
    Field.Grammatical [.bang, .atSign, .leftParen] := by
  intro ⟨described, name, arguments, type, uses⟩ hfine ts hts rest hrest
  obtain ⟨us, hu, vs, hv, rfl⟩ := mem_prod_cons.mp hts
  obtain ⟨_, rfl, ws, hw, rfl⟩ := mem_prod_cons.mp hv
  obtain ⟨xs, hx, ys, hy, rfl⟩ := mem_prod_cons.mp hw
  obtain ⟨_, rfl, zs, hz, rfl⟩ := mem_prod_cons.mp hy
  obtain ⟨ds, hd, as, ha, rfl⟩ := mem_prod_cons.mp hz
  rw [mem_prod_singleton] at ha
  have htype : HeadOutside [.bang] (as ++ rest) :=
    ((head_directives ha).outside (by decide)).append (hrest.mono (by decide))
  have hreadArguments := recovers_argumentDefinitions arguments hfine.arguments xs hx
    ([.punctuator .colon] ++ (ds ++ as) ++ rest) (HeadOutside.mark (by decide))
  have hreadType := recovers_typeUse type hfine.type ds hd _ htype
  have hreadUses := recovers_directives uses hfine.directives as ha rest (hrest.mono (by decide))
  refine Reads.bind (reads_description hu) fun read hdescribed => ?_
  refine Reads.bind (reads_name name _) fun read hname => ?_
  refine Reads.committed (Reads.bind hreadArguments fun read harguments => ?_)
  refine Reads.bind Reads.expect fun _ _ => ?_
  refine Reads.bind hreadType fun read htype => ?_
  refine Reads.bind_last hreadUses fun read huses => ?_
  refine Reads.pure ?_
  rw [Field.mapPlace, hdescribed, hname, harguments, htype, huses]

/-- A value of an enum type is got back unless its directives could go on. -/
theorem recovers_enumValue : enumValue.Recovers (EnumValue.mapPlace noPlace) EnumValue.spelling
    EnumValue.Grammatical [.atSign, .leftParen] := by
  intro ⟨described, name, uses⟩ hfine ts hts rest hrest
  obtain ⟨us, hu, vs, hv, rfl⟩ := mem_prod_cons.mp hts
  obtain ⟨_, rfl, ws, hw, rfl⟩ := mem_prod_cons.mp hv
  rw [mem_prod_singleton] at hw
  have hvalue : Token.enumValueName? (.name name.value) = some name.value :=
    if_neg hfine.name
  have hword : (take .enumValueName Token.enumValueName?).Reads [.name name.value]
      (ws ++ rest) fun read => read.value = name.value := Reads.take hvalue
  have hreadUses := recovers_directives uses hfine.directives ws hw rest hrest
  refine Reads.bind (reads_description hu) fun read hdescribed => ?_
  refine Reads.bind hword fun read hname => ?_
  refine Reads.bind_last hreadUses.committed fun read huses => ?_
  refine Reads.pure ?_
  rw [EnumValue.mapPlace, hdescribed, huses, Located.mapPlace, hname]

/-- Interfaces are there if the keyword is next, and go on as long as the mark is. -/
theorem reads_interfaces {names : List (Located Unit String)} {ts rest : List Token}
    (hts : ts ∈ TypeBody.interfacesSpelling names) (hrest : HeadOutside [.amp] rest)
    (hword : WordOutside "implements" rest) :
    interfaces.Reads ts rest fun read => read.map (Located.mapPlace noPlace) = names := by
  cases names with
  | nil =>
    rw [(Language.mem_one ts).mp hts]
    refine Reads.look (Reads.eatWord_false hword) fun eaten he => ?_
    subst he
    exact Reads.pure rfl
  | cons first names =>
    obtain ⟨_, rfl, us, hu, rfl⟩ := mem_prod_cons.mp hts
    obtain ⟨vs, hv, ws, hw, rfl⟩ := mem_prod_cons.mp hu
    rw [mem_prod_singleton] at hw
    have hnext : HeadOutside [.amp] (ws ++ rest) := by
      refine head_separated (fun name us hu => ?_) (List.cons_ne_nil _ _) hw rest
      rw [show us = _ from hu]
      exact ⟨List.cons_ne_nil _ _, HeadOutside.name⟩
    refine Reads.bind Reads.eatWord fun eaten he => ?_
    subst he
    refine Reads.committed (Reads.bind (Reads.eat_optional hv hnext) fun _ _ => ?_)
    exact (recovers_name _).separated _ ⟨List.cons_ne_nil _ _, fun _ _ => trivial⟩ ws hw rest hrest

/-- Members are there if an equals sign is next, and go on as long as the mark between them is. -/
theorem recovers_unionMembers : unionMembers.Recovers (List.map (Located.mapPlace noPlace))
    TypeBody.membersSpelling (fun _ => True) [.equals, .pipe] := by
  intro names _ ts hts rest hrest
  cases names with
  | nil =>
    rw [(Language.mem_one ts).mp hts]
    exact Reads.ifNext_else (hrest .equals (by decide)) (Reads.pure rfl)
  | cons first names =>
    obtain ⟨_, rfl, us, hu, rfl⟩ := mem_prod_cons.mp hts
    obtain ⟨vs, hv, ws, hw, rfl⟩ := mem_prod_cons.mp hu
    rw [mem_prod_singleton] at hw
    have hnext : HeadOutside [.pipe] (ws ++ rest) := by
      refine head_separated (fun name us hu => ?_) (List.cons_ne_nil _ _) hw rest
      rw [show us = _ from hu]
      exact ⟨List.cons_ne_nil _ _, HeadOutside.name⟩
    refine Reads.ifNext fun _ => ?_
    refine Reads.bind (Reads.eat_optional hv hnext) fun _ _ => ?_
    exact (recovers_name _).separated _ ⟨List.cons_ne_nil _ _, fun _ _ => trivial⟩ ws hw rest
      (hrest.mono (by decide))

end Parser

end SdlGraph
