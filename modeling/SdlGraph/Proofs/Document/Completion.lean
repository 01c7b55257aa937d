import SdlGraph.Proofs.Document.Faithful
import SdlGraph.Proofs.Document.Prediction

/-!
# What was begun can be completed

Every construct of the grammar follows the spellings of what it reads: where a document is refused,
the tokens before that point start some spelling of a document that is in order. The completions are
found part by part, and where the grammar asks for more than its parts do, by a directive that an
extension adds, a root operation of a schema, or a definition behind a description.
-/

namespace SdlGraph

open Spelling

namespace Parser

theorem follows_name (expectation : Expectation) : (name expectation).Follows
    (spelled Located.nameSpelling fun _ : Located Unit String => True) := by
  refine Follows.take (fun token text ht => ?_) ⟨.name "a", rfl⟩
  cases token <;> cases ht
  exact ⟨⟨_, ()⟩, trivial, rfl⟩

theorem follows_description : description.Follows
    (spelled describing fun _ : Option (Located Unit String) => True) := by
  refine ⟨⟨none⟩, (Predicts.take? Token.text?).mono (fun read taken ht => ?_)
    fun _ hviable => hviable⟩
  cases read with
  | none => exact ⟨none, trivial, (Language.mem_one _).mpr ht⟩
  | some read =>
    obtain ⟨token, ht, rfl⟩ := ht
    cases token <;> cases ht
    · exact ⟨some ⟨_, ()⟩, trivial, mem_text.mpr (.inl rfl)⟩
    · exact ⟨some ⟨_, ()⟩, trivial, mem_text.mpr (.inr rfl)⟩

/-- The spellings of constants with a bounded number of levels. -/
def constants (levels : Nat) : Language Token :=
  spelled Value.spelling fun constant => constant.EnumsProper ∧ constant.depth ≤ levels

theorem follows_scalarValue (levels : Nat) : scalarValue.Follows (constants levels) := by
  have hviable : Viable (constants levels) [] :=
    ⟨[.name "null"], .null, ⟨trivial, Nat.zero_le _⟩, rfl⟩
  refine ⟨⟨⟨.null, 0, 1⟩⟩, ((Predicts.take Token.value? hviable).of_takes takes_scalarValue).mono
    (fun read taken ht => ?_) fun _ hviable => hviable⟩
  obtain ⟨-, hspelling, hproper, hdepth⟩ := ht
  exact ⟨read.value, ⟨hproper, hdepth ▸ Nat.zero_le _⟩, hspelling⟩

section

variable {levels : Nat} {content : Parser (Located Extent Value)}
  (ih : content.Follows (constants levels))

include ih

theorem follows_listValue (start : Extent) : (listValue content start).Follows
    ((constants (levels + 1)).leftQuotient [.punctuator .leftBracket]) := by
  refine Follows.bind (Follows.upTo .rightBracket ih.map nil_not_mem_value) fun ts hts read =>
    Follows.pure ?_
  obtain ⟨items, hitems, hts⟩ := hts
  have hproper : Value.itemsProper items :=
    Value.itemsProper_iff.mpr fun item hi => (hitems item hi).1
  have hdepth : Value.itemsDepth items ≤ levels :=
    Value.itemsDepth_le_iff.mpr fun item hi => (hitems item hi).2
  refine ⟨.list items, ⟨hproper, Nat.succ_le_succ hdepth⟩, ?_⟩
  rw [Value.spelling, Value.itemsSpelling_eq_each, List.append_nil]
  exact append_mem_prod (mem_mark.mpr rfl) hts

theorem follows_objectEntry : (objectEntry content).Follows (spelled Value.entrySpelling
    fun entry => entry.2.EnumsProper ∧ entry.2.depth ≤ levels) := by
  refine Follows.bind (follows_name _) fun us hus _ => ?_
  refine Follows.bind (Follows.expect .colon) fun vs hvs _ => ?_
  refine Follows.bind ih fun ws hws _ => Follows.pure ?_
  obtain ⟨name, -, hus⟩ := hus
  obtain ⟨value, hvalue, hws⟩ := hws
  exact ⟨(name.value, value), hvalue,
    append_mem_prod hus (append_mem_prod hvs (append_mem_prod hws nil_mem_prod))⟩

theorem follows_objectValue (start : Extent) : (objectValue content start).Follows
    ((constants (levels + 1)).leftQuotient [.punctuator .leftBrace]) := by
  refine Follows.bind (Follows.upTo .rightBrace (follows_objectEntry ih) nil_not_mem_entry)
    fun ts hts read => Follows.pure ?_
  obtain ⟨entries, hentries, hts⟩ := hts
  have hproper : Value.entriesProper entries :=
    Value.entriesProper_iff.mpr fun entry he => (hentries entry he).1
  have hdepth : Value.entriesDepth entries ≤ levels :=
    Value.entriesDepth_le_iff.mpr fun entry he => (hentries entry he).2
  refine ⟨.object entries, ⟨hproper, Nat.succ_le_succ hdepth⟩, ?_⟩
  rw [Value.spelling, Value.entriesSpelling_eq_each, List.append_nil]
  exact append_mem_prod (mem_mark.mpr rfl) hts

end

/-- Where the levels are used up, a list or an input object is refused at its opening mark. -/
theorem follows_value (levels : Nat) : (value levels).Follows (constants levels) := by
  induction levels with
  | zero =>
    have hscalar := follows_scalarValue 0
    refine Follows.bind_peek? hscalar.result fun index rest => ?_
    split
    next hhead => exact .refuse hscalar.nonempty (List.ne_nil_of_mem (List.mem_of_mem_head? hhead))
    next hhead => exact .refuse hscalar.nonempty (List.ne_nil_of_mem (List.mem_of_mem_head? hhead))
    next => exact hscalar.predicts index rest
  | succ levels ih =>
    refine Follows.ifNext (fun start => (follows_listValue ih start).committed) ?_
    exact Follows.ifNext (fun start => (follows_objectValue ih start).committed)
      (follows_scalarValue (levels + 1))

/-- The spellings of types with a bounded number of lists around a name. -/
def types (levels : Nat) : Language Token :=
  spelled TypeRef.spelling fun type => type.NonNullApart ∧ type.listDepth ≤ levels

/-- The spellings of such types that do not end with an exclamation mark. -/
def bareTypes (levels : Nat) : Language Token :=
  spelled TypeRef.spelling fun type => type.isNonNull = false ∧ type.NonNullApart ∧
    type.listDepth ≤ levels

theorem follows_namedType (levels : Nat) : typeRef.namedType.Follows (bareTypes levels) := by
  refine Follows.bind (follows_name .type) fun us hus name => Follows.pure ?_
  obtain ⟨written, -, hus⟩ := hus
  refine ⟨.named written.value, ⟨rfl, trivial, Nat.zero_le _⟩, ?_⟩
  rw [List.append_nil]
  exact hus

/-- A type and the exclamation mark that may follow it, behind some tokens. -/
theorem follows_nullable {levels : Nat} {before : List Token} {inner : Parser (TypeUse Extent)}
    (h : inner.Follows ((bareTypes levels).leftQuotient before)) :
    (typeRef.nullable inner).Follows ((types levels).leftQuotient before) := by
  refine Follows.bind h fun us hus read => ?_
  obtain ⟨type, ⟨hbare, hapart, hdepth⟩, hus⟩ := hus
  have hbanged : before ++ (us ++ ([.punctuator .bang] ++ [])) ∈ types levels := by
    refine ⟨.nonNull type, ⟨⟨hbare, hapart⟩, hdepth⟩, ?_⟩
    rw [← List.append_assoc]
    exact append_mem_prod hus (append_mem_prod (mem_mark.mpr rfl) nil_mem_prod)
  have hunbanged : before ++ (us ++ []) ∈ types levels := by
    rw [List.append_nil]
    exact ⟨type, ⟨hapart, hdepth⟩, hus⟩
  exact Follows.ifNext (fun _ => Follows.pure hbanged) (Follows.pure hunbanged)

/-- Where the levels are used up, a list type is refused at its opening mark. -/
theorem follows_typeRef (levels : Nat) : (typeRef levels).Follows (types levels) := by
  have hnamed (levels : Nat) : (typeRef.nullable typeRef.namedType).Follows (types levels) := by
    have hbare : typeRef.namedType.Follows ((bareTypes levels).leftQuotient []) :=
      follows_namedType levels
    exact follows_nullable hbare
  induction levels with
  | zero =>
    refine Follows.bind_peek? (hnamed 0).result fun index rest => ?_
    split
    next hhead =>
      exact .refuse (hnamed 0).nonempty (List.ne_nil_of_mem (List.mem_of_mem_head? hhead))
    next => exact (hnamed 0).predicts index rest
  | succ levels ih =>
    have hlist (start : Extent) : (typeRef.listType (typeRef levels) start).Follows
        ((bareTypes (levels + 1)).leftQuotient [.punctuator .leftBracket]) := by
      refine Follows.bind ih fun us hus read => ?_
      refine Follows.bind (Follows.expect .rightBracket) fun vs hvs _ => Follows.pure ?_
      obtain ⟨element, ⟨hapart, hdepth⟩, hus⟩ := hus
      exact ⟨.list element, ⟨rfl, hapart, Nat.succ_le_succ hdepth⟩, append_mem_prod
        (mem_mark.mpr rfl) (append_mem_prod hus (append_mem_prod hvs nil_mem_prod))⟩
    exact Follows.ifNext (fun start => follows_nullable (hlist start).committed)
      (hnamed (levels + 1))

theorem follows_typeUse : typeUse.Follows (spelled TypeRef.spelling TypeRef.Grammatical) :=
  follows_typeRef nestingLimit

theorem follows_constant : constant.Follows (spelled Value.spelling Value.Grammatical) :=
  follows_value nestingLimit

theorem follows_argument : argument.Follows (spelled Argument.spelling
    fun argument : Argument Unit => argument.value.value.Grammatical) := by
  refine Follows.bind (follows_name _) fun us hus _ => ?_
  refine Follows.bind (Follows.expect .colon) fun vs hvs _ => ?_
  refine Follows.bind follows_constant fun ws hws _ => Follows.pure ?_
  obtain ⟨name, -, hus⟩ := hus
  obtain ⟨content, hcontent, hws⟩ := hws
  exact ⟨⟨name, ⟨content, ()⟩⟩, hcontent,
    append_mem_prod hus (append_mem_prod hvs (append_mem_prod hws nil_mem_prod))⟩

theorem follows_directives : directives.Follows (spelled (each DirectiveUse.spelling)
    fun uses : List (DirectiveUse Unit) => ∀ use ∈ uses, use.Grammatical) := by
  refine Follows.collect_each (Follows.predicts_following fun start => Follows.committed ?_)
    nil_not_mem_directiveUse
  refine Follows.bind (follows_name _) fun us hus _ => ?_
  refine Follows.bind (Follows.delimited .leftParen .rightParen follows_argument
    nil_not_mem_argument) fun vs hvs _ => Follows.pure ?_
  obtain ⟨name, -, hus⟩ := hus
  obtain ⟨arguments, harguments, hvs⟩ := hvs
  exact ⟨⟨name, arguments, ()⟩, harguments, append_mem_prod (mem_mark.mpr rfl)
    (append_mem_prod hus (append_mem_prod hvs nil_mem_prod))⟩

theorem follows_inputValue (expectation : Expectation) : (inputValue expectation).Follows
    (spelled InputValue.spelling fun input : InputValue Unit => input.Grammatical) := by
  have hdefault : (following .equals fun _ => constant).Follows (spelled InputValue.defaultSpelling
      fun default : Option (Located Unit Value) =>
        ∀ written ∈ default, written.value.Grammatical) := by
    refine Follows.following (fun _ => follows_constant.mono fun us hus => ?_) ⟨none, by simp, rfl⟩
    obtain ⟨content, hcontent, hus⟩ := hus
    refine ⟨some ⟨content, ()⟩, fun written hw => ?_,
      append_mem_prod (mem_mark.mpr rfl) (mem_prod_singleton.mpr hus)⟩
    cases hw
    exact hcontent
  refine Follows.bind follows_description fun us hus _ => ?_
  refine Follows.bind (follows_name expectation) fun vs hvs _ => Follows.committed ?_
  refine Follows.bind (Follows.expect .colon) fun ws hws _ => ?_
  refine Follows.bind follows_typeUse fun xs hxs _ => ?_
  refine Follows.bind hdefault fun ys hys _ => ?_
  refine Follows.bind follows_directives fun zs hzs _ => Follows.pure ?_
  obtain ⟨described, -, hus⟩ := hus
  obtain ⟨name, -, hvs⟩ := hvs
  obtain ⟨type, htype, hxs⟩ := hxs
  obtain ⟨default, hdefault, hys⟩ := hys
  obtain ⟨uses, huses, hzs⟩ := hzs
  exact ⟨⟨described, name, ⟨type, (), ()⟩, default, uses⟩, ⟨htype, hdefault, huses⟩,
    append_mem_prod hus (append_mem_prod hvs (append_mem_prod hws (append_mem_prod hxs
      (append_mem_prod hys (append_mem_prod hzs nil_mem_prod)))))⟩

theorem follows_argumentDefinitions : argumentDefinitions.Follows
    (spelled (block InputValue.spelling .leftParen .rightParen)
      fun arguments : List (InputValue Unit) => ∀ argument ∈ arguments, argument.Grammatical) :=
  (Follows.delimited _ _ (follows_inputValue _) nil_not_mem_inputValue).map

theorem follows_field : field.Follows
    (spelled Field.spelling fun field : Field Unit => field.Grammatical) := by
  refine Follows.bind follows_description fun us hus _ => ?_
  refine Follows.bind (follows_name _) fun vs hvs _ => Follows.committed ?_
  refine Follows.bind follows_argumentDefinitions fun ws hws _ => ?_
  refine Follows.bind (Follows.expect .colon) fun xs hxs _ => ?_
  refine Follows.bind follows_typeUse fun ys hys _ => ?_
  refine Follows.bind follows_directives fun zs hzs _ => Follows.pure ?_
  obtain ⟨described, -, hus⟩ := hus
  obtain ⟨name, -, hvs⟩ := hvs
  obtain ⟨arguments, harguments, hws⟩ := hws
  obtain ⟨type, htype, hys⟩ := hys
  obtain ⟨uses, huses, hzs⟩ := hzs
  exact ⟨⟨described, name, arguments, ⟨type, (), ()⟩, uses⟩, ⟨harguments, htype, huses⟩,
    append_mem_prod hus (append_mem_prod hvs (append_mem_prod hws (append_mem_prod hxs
      (append_mem_prod hys (append_mem_prod hzs nil_mem_prod)))))⟩

theorem follows_enumValue : enumValue.Follows
    (spelled EnumValue.spelling fun value : EnumValue Unit => value.Grammatical) := by
  have hname : (take .enumValueName Token.enumValueName?).Follows
      (spelled word fun text => text ∉ reservedWords) := by
    refine Follows.take (fun token text ht => ?_) ⟨.name "a", rfl⟩
    unfold Token.enumValueName? at ht
    split at ht
    next written =>
      split at ht
      next => cases ht
      next hreserved =>
        cases ht
        exact ⟨_, hreserved, rfl⟩
    next => cases ht
  refine Follows.bind follows_description fun us hus _ => ?_
  refine Follows.bind hname fun vs hvs _ => ?_
  refine Follows.bind follows_directives.committed fun ws hws _ => Follows.pure ?_
  obtain ⟨described, -, hus⟩ := hus
  obtain ⟨text, htext, hvs⟩ := hvs
  obtain ⟨uses, huses, hws⟩ := hws
  exact ⟨⟨described, ⟨text, ()⟩, uses⟩, ⟨htext, huses⟩,
    append_mem_prod hus (append_mem_prod hvs (append_mem_prod hws nil_mem_prod))⟩

/-- Names with a mark between them, which may stand before the first one as well. -/
theorem follows_names (expectation : Expectation) (between : Punctuator) :
    Follows (do
      let _ ← eat between
      separated between (name expectation))
      (spelled (fun names => [optional (mark between),
        Spelling.separated Located.nameSpelling between names].prod)
        fun names : List (Located Unit String) => names ≠ []) := by
  refine Follows.bind (Follows.eat_optional between) fun us hus _ => ?_
  refine (Follows.separated between (follows_name expectation)).mono fun vs hvs => ?_
  obtain ⟨names, ⟨hne, -⟩, hvs⟩ := hvs
  exact ⟨names, hne, append_mem_prod hus (mem_prod_singleton.mpr hvs)⟩

theorem follows_interfaces : interfaces.Follows
    (spelled TypeBody.interfacesSpelling fun _ : List (Located Unit String) => True) := by
  refine Follows.ite_eatWord (Follows.committed ((follows_names _ .amp).mono fun ts hts => ?_))
    (Follows.pure ⟨[], trivial, rfl⟩)
  obtain ⟨names, hne, hts⟩ := hts
  cases names with
  | nil => exact absurd rfl hne
  | cons first rest => exact ⟨first :: rest, trivial, append_mem_prod (mem_word.mpr rfl) hts⟩

theorem follows_unionMembers : unionMembers.Follows
    (spelled TypeBody.membersSpelling fun _ : List (Located Unit String) => True) := by
  refine Follows.ifNext (fun _ => (follows_names _ .pipe).mono fun ts hts => ?_)
    (Follows.pure ⟨[], trivial, rfl⟩)
  obtain ⟨names, hne, hts⟩ := hts
  cases names with
  | nil => exact absurd rfl hne
  | cons first rest => exact ⟨first :: rest, trivial, append_mem_prod (mem_mark.mpr rfl) hts⟩

/-- The interfaces, directives and fields of an object or interface type. -/
def composites : Language Token :=
  {ts | ∃ (names : List (Located Unit String)) (uses : List (DirectiveUse Unit))
    (fields : List (Field Unit)), (∀ use ∈ uses, use.Grammatical) ∧
      (∀ field ∈ fields, field.Grammatical) ∧
      ts ∈ [TypeBody.interfacesSpelling names, each DirectiveUse.spelling uses,
        block Field.spelling .leftBrace .rightBrace fields].prod}

theorem follows_composite {make : List (Located Extent String) → List (Field Extent) →
    TypeBody Extent} : Follows (do
      let interfaces ← interfaces
      let directives ← directives
      let (fields, block) ← fields
      pure (directives, make interfaces fields, block)) composites := by
  refine Follows.bind follows_interfaces fun us hus _ => ?_
  refine Follows.bind follows_directives fun vs hvs _ => ?_
  refine Follows.bind (Follows.delimited _ _ follows_field nil_not_mem_field)
    fun ws hws _ => Follows.pure ?_
  obtain ⟨names, -, hus⟩ := hus
  obtain ⟨uses, huses, hvs⟩ := hvs
  obtain ⟨fields, hfields, hws⟩ := hws
  exact ⟨names, uses, fields, huses, hfields,
    append_mem_prod hus (append_mem_prod hvs (append_mem_prod hws nil_mem_prod))⟩

/-- The spellings of what follows the name of a type of some kind. -/
def tails (kind : TypeKind) : Language Token :=
  spelled (fun read : List (DirectiveUse Unit) × TypeBody Unit => read.2.tailSpelling read.1)
    fun read => read.2.kind = kind ∧ (∀ use ∈ read.1, use.Grammatical) ∧ read.2.Grammatical

theorem follows_typeBody (kind : TypeKind) : (typeBody kind).Follows (tails kind) := by
  cases kind with
  | object =>
    refine follows_composite.mono fun ts hts => ?_
    obtain ⟨names, uses, fields, huses, hfields, hts⟩ := hts
    have hbody : (TypeBody.object names fields).Grammatical :=
      ⟨hfields, List.forall_mem_nil _, List.forall_mem_nil _⟩
    exact ⟨(uses, .object names fields), ⟨rfl, huses, hbody⟩, hts⟩
  | interface =>
    refine follows_composite.mono fun ts hts => ?_
    obtain ⟨names, uses, fields, huses, hfields, hts⟩ := hts
    have hbody : (TypeBody.interface names fields).Grammatical :=
      ⟨hfields, List.forall_mem_nil _, List.forall_mem_nil _⟩
    exact ⟨(uses, .interface names fields), ⟨rfl, huses, hbody⟩, hts⟩
  | union =>
    refine Follows.bind follows_directives fun us hus _ => ?_
    refine Follows.bind follows_unionMembers fun vs hvs _ => Follows.pure ?_
    obtain ⟨uses, huses, hus⟩ := hus
    obtain ⟨names, -, hvs⟩ := hvs
    have hbody : (TypeBody.union names).Grammatical :=
      ⟨List.forall_mem_nil _, List.forall_mem_nil _, List.forall_mem_nil _⟩
    exact ⟨(uses, .union names), ⟨rfl, huses, hbody⟩, mem_prod_one_cons.mpr
      (append_mem_prod hus (append_mem_prod hvs nil_mem_prod))⟩
  | enum =>
    refine Follows.bind follows_directives fun us hus _ => ?_
    refine Follows.bind (Follows.delimited _ _ follows_enumValue nil_not_mem_enumValue)
      fun vs hvs _ => Follows.pure ?_
    obtain ⟨uses, huses, hus⟩ := hus
    obtain ⟨values, hvalues, hvs⟩ := hvs
    have hbody : (TypeBody.enum values).Grammatical :=
      ⟨List.forall_mem_nil _, List.forall_mem_nil _, hvalues⟩
    exact ⟨(uses, .enum values), ⟨rfl, huses, hbody⟩, mem_prod_one_cons.mpr
      (append_mem_prod hus (append_mem_prod hvs nil_mem_prod))⟩
  | inputObject =>
    refine Follows.bind follows_directives fun us hus _ => ?_
    refine Follows.bind (Follows.delimited _ _ (follows_inputValue _) nil_not_mem_inputValue)
      fun vs hvs _ => Follows.pure ?_
    obtain ⟨uses, huses, hus⟩ := hus
    obtain ⟨fields, hfields, hvs⟩ := hvs
    have hbody : (TypeBody.inputObject fields).Grammatical :=
      ⟨List.forall_mem_nil _, hfields, List.forall_mem_nil _⟩
    exact ⟨(uses, .inputObject fields), ⟨rfl, huses, hbody⟩, mem_prod_one_cons.mpr
      (append_mem_prod hus (append_mem_prod hvs nil_mem_prod))⟩
  | scalar =>
    refine Follows.bind follows_directives fun us hus _ => Follows.pure ?_
    obtain ⟨uses, huses, hus⟩ := hus
    have hbody : (TypeBody.scalar : TypeBody Unit).Grammatical :=
      ⟨List.forall_mem_nil _, List.forall_mem_nil _, List.forall_mem_nil _⟩
    exact ⟨(uses, .scalar), ⟨rfl, huses, hbody⟩, mem_prod_one_cons.mpr
      (append_mem_prod hus (mem_prod_one_cons.mpr nil_mem_prod))⟩

end Parser

namespace Spelling

variable {α σ : Type} {item : α → Language Token} {opening close : Punctuator} {ts : List Token}

/-- A list that is written as nothing only if it is empty. -/
theorem eq_nil_iff_of_spelling {spelling : List α → Language Token} {items : List α}
    (hnil : spelling [] = 1) (hcons : ∀ first rest, [] ∉ spelling (first :: rest))
    (h : ts ∈ spelling items) : ts = [] ↔ items = [] := by
  cases items with
  | nil =>
    rw [hnil] at h
    exact iff_of_true ((Language.mem_one ts).mp h) rfl
  | cons first rest =>
    refine iff_of_false (fun hempty => ?_) (List.cons_ne_nil _ _)
    exact hcons first rest (hempty ▸ h)

theorem each_eq_nil_iff {items : List α} (hne : ∀ value, [] ∉ item value)
    (h : ts ∈ each item items) : ts = [] ↔ items = [] :=
  eq_nil_iff_of_spelling rfl (fun first _ hnil => hne first (nil_mem_prod_cons.mp hnil).1) h

theorem block_eq_nil_iff {items : List α} (h : ts ∈ block item opening close items) :
    ts = [] ↔ items = [] :=
  eq_nil_iff_of_spelling rfl (fun _ _ hnil => nil_not_mem_mark (nil_mem_prod_cons.mp hnil).1) h

theorem interfaces_eq_nil_iff {names : List (Located σ String)}
    (h : ts ∈ TypeBody.interfacesSpelling names) : ts = [] ↔ names = [] :=
  eq_nil_iff_of_spelling rfl (fun _ _ hnil => nil_not_mem_word (nil_mem_prod_cons.mp hnil).1) h

theorem members_eq_nil_iff {names : List (Located σ String)}
    (h : ts ∈ TypeBody.membersSpelling names) : ts = [] ↔ names = [] :=
  eq_nil_iff_of_spelling rfl (fun _ _ hnil => nil_not_mem_mark (nil_mem_prod_cons.mp hnil).1) h

/-- A type is written without anything behind its name only if it has no directives and no parts. -/
theorem tail_eq_nil_iff {uses : List (DirectiveUse σ)} {body : TypeBody σ}
    (h : ts ∈ body.tailSpelling uses) : ts = [] ↔ uses = [] ∧ body.isEmpty = true := by
  obtain ⟨us, hus, rs, hrs, rfl⟩ := mem_prod_cons.mp h
  obtain ⟨vs, hvs, ws, hws, rfl⟩ := mem_prod_cons.mp hrs
  rw [mem_prod_singleton] at hws
  rw [List.append_eq_nil_iff, List.append_eq_nil_iff, interfaces_eq_nil_iff hus,
    each_eq_nil_iff nil_not_mem_directiveUse hvs, and_left_comm]
  refine and_congr_right fun _ => ?_
  cases body with
  | object names fields =>
    rw [block_eq_nil_iff hws]
    simp [TypeBody.isEmpty, TypeBody.interfaces, TypeBody.fields, TypeBody.inputFields,
      TypeBody.members, TypeBody.values]
  | interface names fields =>
    rw [block_eq_nil_iff hws]
    simp [TypeBody.isEmpty, TypeBody.interfaces, TypeBody.fields, TypeBody.inputFields,
      TypeBody.members, TypeBody.values]
  | union names =>
    rw [members_eq_nil_iff hws]
    simp [TypeBody.isEmpty, TypeBody.interfaces, TypeBody.fields, TypeBody.inputFields,
      TypeBody.members, TypeBody.values]
  | enum values =>
    rw [block_eq_nil_iff hws]
    simp [TypeBody.isEmpty, TypeBody.interfaces, TypeBody.fields, TypeBody.inputFields,
      TypeBody.members, TypeBody.values]
  | inputObject fields =>
    rw [block_eq_nil_iff hws]
    simp [TypeBody.isEmpty, TypeBody.interfaces, TypeBody.fields, TypeBody.inputFields,
      TypeBody.members, TypeBody.values]
  | scalar =>
    rw [(Language.mem_one ws).mp hws]
    simp [TypeBody.isEmpty, TypeBody.interfaces, TypeBody.fields, TypeBody.inputFields,
      TypeBody.members, TypeBody.values]

end Spelling

namespace Parser

/-- A directive application without arguments. -/
def plainUse : DirectiveUse Unit := ⟨⟨"a", ()⟩, [], ()⟩

theorem mem_plainUse : [.punctuator .atSign, .name "a"] ∈ plainUse.spelling := by
  have hname : [.name "a"] ∈ [word "a", (1 : Language Token)].prod :=
    append_mem_prod (mem_word.mpr rfl) (mem_prod_one_cons.mpr nil_mem_prod)
  exact append_mem_prod (mem_mark.mpr rfl) hname

/-- What follows the name of a type can be written on so that it adds something. -/
theorem exists_tail {kind : TypeKind} {ts : List Token} (hts : ts ∈ tails kind) :
    ∃ more, ts ++ more ∈ tails kind ∧ ts ++ more ≠ [] := by
  by_cases hnil : ts = []
  · obtain ⟨⟨uses, body⟩, ⟨hkind, huses, hbody⟩, htail⟩ := hts
    obtain ⟨rfl, -⟩ : uses = [] ∧ body.isEmpty = true := (tail_eq_nil_iff htail).mp hnil
    subst hnil
    obtain ⟨hinterfaces, hrest⟩ := nil_mem_prod_cons.mp htail
    have hmore : [.punctuator .atSign, .name "a"] ∈
        each DirectiveUse.spelling [plainUse] :=
      mem_each_cons.mpr ⟨_, mem_plainUse, [], mem_each_nil.mpr rfl, rfl⟩
    have hplain : ∀ use ∈ [plainUse], use.Grammatical := by
      intro use hu
      rw [List.mem_singleton.mp hu]
      exact List.forall_mem_nil _
    have hspelled : [.punctuator .atSign, .name "a"] ∈ body.tailSpelling [plainUse] :=
      append_mem_prod hinterfaces (append_mem_prod hmore (nil_mem_prod_cons.mp hrest).2)
    exact ⟨_, ⟨([plainUse], body), ⟨hkind, hplain, hbody⟩, hspelled⟩, List.cons_ne_nil _ _⟩
  · exact ⟨[], by rwa [List.append_nil], by rwa [List.append_nil]⟩

/-- The spellings of type declarations of which those that extend a type add something. -/
def declarations (isExtension : Bool) : Language Token :=
  spelled TypeDeclaration.spelling fun declaration : TypeDeclaration Unit =>
    declaration.Grammatical ∧ (isExtension = true →
      declaration.directives ≠ [] ∨ declaration.body.isEmpty = false)

/-- A keyword, a name and a tail make a declaration. -/
theorem mem_declarations {kind : TypeKind} {isExtension : Bool} {us vs ws : List Token}
    (hus : us ∈ word kind.keyword) (hvs : vs ∈ spelled Located.nameSpelling
      fun _ : Located Unit String => True) (hws : ws ∈ tails kind)
    (hadds : isExtension = true → ws ≠ []) :
    us ++ (vs ++ ws) ∈ declarations isExtension := by
  obtain ⟨name, -, hvs⟩ := hvs
  obtain ⟨⟨uses, body⟩, ⟨rfl, huses, hbody⟩, hws⟩ := hws
  refine ⟨⟨name, uses, body, ()⟩, ⟨⟨huses, hbody⟩, fun hextension => ?_⟩,
    append_mem_prod hus (append_mem_prod hvs hws)⟩
  have hempty := mt (tail_eq_nil_iff hws).mpr (hadds hextension)
  rw [not_and_or, Bool.not_eq_true] at hempty
  exact hempty

theorem follows_typeDeclaration (kind : TypeKind) (isExtension : Bool) (start : Extent) :
    (typeDeclaration kind isExtension start).Follows (declarations isExtension) := by
  refine Follows.bind (Follows.expectWord _) fun us hus _ => Follows.committed ?_
  refine Follows.bind (follows_name _) fun vs hvs name => ?_
  have hviable (ws : List Token) (hws : ws ∈ tails kind) :
      Viable (((declarations isExtension).leftQuotient us).leftQuotient vs) ws := by
    obtain ⟨more, hmore, hne⟩ := exists_tail hws
    exact ⟨more, mem_declarations hus hvs hmore fun _ => hne⟩
  have hresult : Nonempty (TypeDeclaration Extent) := ⟨⟨name, [], .scalar, ⟨0, 0⟩⟩⟩
  refine Follows.bind_of_takes (follows_typeBody kind) (takes_typeBody kind) hresult hviable ?_
  intro read ws hws hread
  dsimp only
  split
  next => exact Follows.refuse hresult (hviable ws hws)
  next hadds =>
    refine Follows.pure ?_
    have hne : isExtension = true → ws ≠ [] := by
      intro hextension hnil
      obtain ⟨huses, hbody⟩ := (tail_eq_nil_iff hread.2.1).mp hnil
      exact hadds (by rw [hextension, huses, hbody]; rfl)
    rw [Language.mem_leftQuotient, List.append_nil]
    exact mem_declarations hus hvs hws hne

theorem follows_rootOperation : rootOperation.Follows
    (spelled RootOperation.spelling fun _ : RootOperation Unit => True) := by
  have hword : (take .operation Token.operation?).Follows
      (spelled (fun operation : OperationKind => word operation.keyword) fun _ => True) := by
    refine Follows.take (fun token operation ht => ?_) ⟨.name "query", rfl⟩
    cases token with
    | name text =>
      exact ⟨operation, trivial, mem_word.mpr (by rw [OperationKind.ofKeyword?_eq_some_iff.mp ht])⟩
    | _ => cases ht
  have htail : Follows (do let _ ← expect .colon; name .typeName)
      (spelled (fun type => [mark .colon, word type.value].prod)
        fun _ : Located Unit String => True) := by
    refine Follows.bind (Follows.expect .colon) fun us hus _ => ?_
    refine (follows_name _).mono fun vs hvs => ?_
    obtain ⟨type, -, hvs⟩ := hvs
    exact ⟨type, trivial, append_mem_prod hus (mem_prod_singleton.mpr hvs)⟩
  refine Follows.bind hword fun us hus _ => ?_
  refine Follows.bind htail.committed fun vs hvs _ => Follows.pure ?_
  obtain ⟨operation, -, hus⟩ := hus
  obtain ⟨type, -, hvs⟩ := hvs
  rw [Language.mem_leftQuotient, Language.mem_leftQuotient, List.append_nil]
  exact ⟨⟨⟨operation, ()⟩, type⟩, trivial, append_mem_prod hus hvs⟩

/-- The spellings of schema blocks that name an operation, unless they extend the schema by a
directive. -/
def schemaBlocks (isExtension : Bool) : Language Token :=
  spelled SchemaBlock.spelling fun block : SchemaBlock Unit =>
    (∀ use ∈ block.directives, use.Grammatical) ∧
      (block.operations ≠ [] ∨ isExtension = true ∧ block.directives ≠ [])

/-- The spellings of root operations between braces. -/
def operations : Language Token :=
  spelled (block RootOperation.spelling .leftBrace .rightBrace)
    fun operations : List (RootOperation Unit) => ∀ operation ∈ operations, True

theorem nil_mem_operations : [] ∈ operations :=
  ⟨[], List.forall_mem_nil _, mem_block_nil.mpr rfl⟩

/-- Root operations that are not written can be. -/
theorem exists_operations {ts : List Token} (hts : ts ∈ operations) :
    ∃ more, ts ++ more ∈ operations ∧ ts ++ more ≠ [] := by
  by_cases hnil : ts = []
  · have hroot : [.name "query", .punctuator .colon, .name "A"] ∈
        RootOperation.spelling ⟨⟨.query, ()⟩, ⟨"A", ()⟩⟩ :=
      append_mem_prod (mem_word.mpr rfl) (append_mem_prod (mem_mark.mpr rfl)
        (append_mem_prod (mem_word.mpr rfl) nil_mem_prod))
    have hblock : [.punctuator .leftBrace, .name "query", .punctuator .colon, .name "A",
        .punctuator .rightBrace] ∈ operations :=
      ⟨[_], fun _ _ => trivial, (mem_block (List.cons_ne_nil _ _)).mpr
        ⟨_, mem_each_cons.mpr ⟨_, hroot, [], mem_each_nil.mpr rfl, rfl⟩, rfl⟩⟩
    rw [hnil]
    exact ⟨_, hblock, List.cons_ne_nil _ _⟩
  · exact ⟨[], by rwa [List.append_nil], by rwa [List.append_nil]⟩

/-- A keyword, directives and operations make a schema block. -/
theorem mem_schemaBlocks {isExtension : Bool} {us vs ws : List Token} (hus : us ∈ word "schema")
    (hvs : vs ∈ spelled (each DirectiveUse.spelling)
      fun uses : List (DirectiveUse Unit) => ∀ use ∈ uses, use.Grammatical)
    (hws : ws ∈ operations) (hnames : ws ≠ [] ∨ isExtension = true ∧ vs ≠ []) :
    us ++ (vs ++ ws) ∈ schemaBlocks isExtension := by
  obtain ⟨uses, huses, hvs⟩ := hvs
  obtain ⟨operations, -, hws⟩ := hws
  rw [ne_eq, ne_eq, block_eq_nil_iff hws, each_eq_nil_iff nil_not_mem_directiveUse hvs] at hnames
  exact ⟨⟨uses, operations, ()⟩, ⟨huses, hnames⟩,
    append_mem_prod hus (append_mem_prod hvs (mem_prod_singleton.mpr hws))⟩

theorem follows_schemaBlock (isExtension : Bool) (start : Extent) :
    (schemaBlock isExtension start).Follows (schemaBlocks isExtension) := by
  refine Follows.bind (Follows.expectWord _) fun us hus _ => Follows.committed ?_
  have hresult : Nonempty (SchemaBlock Extent) := ⟨⟨[], [], ⟨0, 0⟩⟩⟩
  have hviable (vs : List Token) (hvs : vs ∈ spelled (each DirectiveUse.spelling)
      fun uses : List (DirectiveUse Unit) => ∀ use ∈ uses, use.Grammatical)
      (ws : List Token) (hws : ws ∈ operations) :
      Viable (((schemaBlocks isExtension).leftQuotient us).leftQuotient vs) ws := by
    obtain ⟨more, hmore, hne⟩ := exists_operations hws
    exact ⟨more, mem_schemaBlocks hus hvs hmore (.inl hne)⟩
  have hviable' (vs : List Token) (hvs : vs ∈ spelled (each DirectiveUse.spelling)
      fun uses : List (DirectiveUse Unit) => ∀ use ∈ uses, use.Grammatical) :
      Viable ((schemaBlocks isExtension).leftQuotient us) vs := hviable vs hvs [] nil_mem_operations
  refine Follows.bind_of_takes follows_directives takes_directives hresult hviable' ?_
  intro uses vs hvs huses
  refine Follows.bind_of_takes (Follows.delimited _ _ follows_rootOperation
    nil_not_mem_rootOperation) (Takes.delimited takes_rootOperation nil_not_mem_rootOperation)
    hresult (hviable vs hvs) ?_
  intro ⟨named, block⟩ ws hws ⟨_, hnamed, hblock⟩
  dsimp only at hnamed hblock ⊢
  split
  next => exact Follows.refuse hresult (hviable vs hvs ws hws)
  next hnames =>
    refine Follows.pure ?_
    rw [Language.mem_leftQuotient, List.append_nil]
    refine mem_schemaBlocks hus hvs hws ?_
    rw [ne_eq, ne_eq, block_eq_nil_iff hnamed, each_eq_nil_iff nil_not_mem_directiveUse huses.2]
    by_cases hempty : named = []
    · right
      have hnone : block = none := hblock.mpr hempty
      simpa [hnone] using hnames
    · exact .inl hempty

theorem follows_directiveLocation : directiveLocation.Follows
    (spelled Located.locationSpelling fun _ : Located Unit DirectiveLocation => True) := by
  have hword : (take .directiveLocation Token.location?).Follows
      (spelled Located.locationSpelling fun _ : Located Unit DirectiveLocation => True) := by
    refine Follows.take (fun token location ht => ?_) ⟨.name "QUERY", rfl⟩
    cases token with
    | name text =>
      exact ⟨⟨location, ()⟩, trivial,
        mem_word.mpr (by rw [DirectiveLocation.ofName?_eq_some_iff.mp ht])⟩
    | _ => cases ht
  exact hword

theorem follows_directiveDeclaration (start : Extent) : (directiveDeclaration start).Follows
    (spelled DirectiveDeclaration.spelling
      fun declaration : DirectiveDeclaration Unit => declaration.Grammatical) := by
  refine Follows.bind (Follows.expectWord _) fun ss hss _ => Follows.committed ?_
  refine Follows.bind (Follows.expect .atSign) fun ts hts _ => ?_
  refine Follows.bind (follows_name _) fun us hus _ => ?_
  refine Follows.bind follows_argumentDefinitions fun vs hvs _ => ?_
  refine Follows.bind (Follows.eatWord_optional "repeatable") fun ws hws _ => ?_
  refine Follows.bind (Follows.expectWord _) fun xs hxs _ => ?_
  refine Follows.bind (Follows.eat_optional .pipe) fun ys hys _ => ?_
  refine Follows.bind (Follows.separated .pipe follows_directiveLocation)
    fun zs hzs _ => Follows.pure ?_
  obtain ⟨name, -, hus⟩ := hus
  obtain ⟨arguments, harguments, hvs⟩ := hvs
  obtain ⟨isRepeatable, hws⟩ : ∃ isRepeatable : Bool,
      ws ∈ if isRepeatable then word "repeatable" else (1 : Language Token) := by
    rcases mem_optional.mp hws with rfl | hws
    · exact ⟨false, rfl⟩
    · exact ⟨true, hws⟩
  obtain ⟨locations, ⟨hne, -⟩, hzs⟩ := hzs
  exact ⟨⟨name, arguments, isRepeatable, locations, ()⟩, ⟨harguments, hne⟩,
    append_mem_prod hss (append_mem_prod hts (append_mem_prod hus (append_mem_prod hvs
      (append_mem_prod hws (append_mem_prod hxs (append_mem_prod hys
        (append_mem_prod hzs nil_mem_prod)))))))⟩

/-- The spellings of definitions and extensions that are in order. -/
def definitions : Language Token :=
  spelled Definition.spelling fun definition : Definition Unit => definition.Grammatical

/-- The rest of an extension makes one together with its keyword. -/
theorem extend_mem_definitions {ts : List Token}
    (hts : ts ∈ schemaBlocks true ∨ ts ∈ declarations true) :
    .name "extend" :: ts ∈ definitions := by
  have hextend : [.name "extend"] ∈ word "extend" := mem_word.mpr rfl
  rcases hts with hts | hts
  · obtain ⟨block, ⟨huses, hadds⟩, hts⟩ := hts
    exact ⟨.extendSchema block, ⟨huses, hadds.symm.imp_left And.right⟩,
      append_mem_prod hextend (mem_prod_singleton.mpr hts)⟩
  · obtain ⟨declaration, ⟨hdeclaration, hadds⟩, hts⟩ := hts
    exact ⟨.extendType declaration, ⟨hdeclaration, hadds rfl⟩,
      append_mem_prod hextend (mem_prod_singleton.mpr hts)⟩

/-- What is not a schema or a type cannot be extended, and is refused after the keyword. -/
theorem follows_extension (start : Extent) :
    (extension start).Follows (definitions.leftQuotient [.name "extend"]) := by
  have hschema : (Definition.extendSchema <$> schemaBlock true start).Follows
      (definitions.leftQuotient [.name "extend"]) :=
    (follows_schemaBlock true start).map.mono fun ts hts => extend_mem_definitions (.inl hts)
  have htype (kind : TypeKind) : (Definition.extendType <$> typeDeclaration kind true start).Follows
      (definitions.leftQuotient [.name "extend"]) :=
    (follows_typeDeclaration kind true start).map.mono fun ts hts =>
      extend_mem_definitions (.inr hts)
  refine Follows.bind_peek? hschema.result fun index rest => ?_
  split
  next => exact hschema.predicts index rest
  next =>
    split
    next kind _ => exact (htype kind).predicts index rest
    next => exact .refuse hschema.nonempty trivial
  next => exact .refuse hschema.nonempty trivial

/-- The rest of a definition makes one together with its description. -/
theorem described_mem_definitions {us ts : List Token} (hus : us ∈ spelled describing
      fun _ : Option (Located Unit String) => True)
    (hts : ts ∈ schemaBlocks false ∨ ts ∈ declarations false ∨
      ts ∈ spelled DirectiveDeclaration.spelling
        fun declaration : DirectiveDeclaration Unit => declaration.Grammatical) :
    us ++ ts ∈ definitions := by
  obtain ⟨described, -, hus⟩ := hus
  rcases hts with hts | hts | hts
  · obtain ⟨block, ⟨huses, hnames⟩, hts⟩ := hts
    exact ⟨.schema described block, ⟨huses, hnames.resolve_right fun h => Bool.noConfusion h.1⟩,
      append_mem_prod hus (mem_prod_singleton.mpr hts)⟩
  · obtain ⟨declaration, ⟨hdeclaration, -⟩, hts⟩ := hts
    exact ⟨.type described declaration, hdeclaration,
      append_mem_prod hus (mem_prod_singleton.mpr hts)⟩
  · obtain ⟨declaration, hdeclaration, hts⟩ := hts
    exact ⟨.directive described declaration, hdeclaration,
      append_mem_prod hus (mem_prod_singleton.mpr hts)⟩

/-- Behind a description, a definition is told by its first word. An extension has no description,
and an operation or a fragment is refused at its first token. -/
theorem follows_describedDefinition {us : List Token} (start : Extent)
    {described : Option (Located Extent String)} (hdescribed : us ∈ describing described)
    (hus : us ∈ spelled describing fun _ : Option (Located Unit String) => True) :
    (describedDefinition start described).Follows (definitions.leftQuotient us) := by
  have hschema : (Definition.schema described <$> schemaBlock false start).Follows
      (definitions.leftQuotient us) :=
    (follows_schemaBlock false start).map.mono fun ts hts =>
      described_mem_definitions hus (.inl hts)
  have htype (kind : TypeKind) :
      (Definition.type described <$> typeDeclaration kind false start).Follows
        (definitions.leftQuotient us) :=
    (follows_typeDeclaration kind false start).map.mono fun ts hts =>
      described_mem_definitions hus (.inr (.inl hts))
  have hdirective : (Definition.directive described <$> directiveDeclaration start).Follows
      (definitions.leftQuotient us) :=
    (follows_directiveDeclaration start).map.mono fun ts hts =>
      described_mem_definitions hus (.inr (.inr hts))
  refine Follows.bind_peek? hschema.result fun index rest => ?_
  split
  next => exact .refuse hschema.nonempty trivial
  next hhead => exact .refuse hschema.nonempty (List.ne_nil_of_mem (List.mem_of_mem_head? hhead))
  next word hhead =>
    split_ifs with hword hword hextend hexecutable
    · exact hschema.predicts index rest
    · exact hdirective.predicts index rest
    · obtain rfl : described = none := Option.isNone_iff_eq_none.mp hextend.2
      obtain rfl := (Language.mem_one us).mp hdescribed
      have hextension : Follows (do let _ ← expectWord "extend"; extension start)
          (definitions.leftQuotient []) := by
        refine Follows.bind (Follows.expectWord _) fun vs hvs _ => ?_
        rw [mem_word.mp hvs]
        exact follows_extension start
      exact hextension.predicts index rest
    · exact .refuse hschema.nonempty (List.ne_nil_of_mem (List.mem_of_mem_head? hhead))
    · split
      next kind _ => exact (htype kind).predicts index rest
      next => exact .refuse hschema.nonempty trivial
  next => exact .refuse hschema.nonempty trivial

theorem follows_definition : definition.Follows definitions := by
  have hresult : Nonempty (Definition Extent) := ⟨.extendSchema ⟨[], [], ⟨0, 0⟩⟩⟩
  refine Follows.bind_of_takes follows_description takes_description hresult (fun us hus => ?_)
    fun described us hus hdescribed => Follows.bind_nextPlace fun next =>
      follows_describedDefinition _ hdescribed hus
  obtain ⟨ts, hts⟩ := (follows_schemaBlock false ⟨0, 1⟩).nonempty
  exact ⟨ts, described_mem_definitions hus (.inl hts)⟩

/-- The definitions of a document are followed one after the other. -/
theorem follows_definitions : (collect definition?).Follows
    (spelled (each Definition.spelling) fun definitions : List (Definition Unit) =>
      ∀ definition ∈ definitions, definition.Grammatical) := by
  have hnone : Predicts (pure none : Parser (Option (Definition Extent))) (fun result taken =>
      result.elim (taken ∈ (1 : Language Token)) fun _ => taken ∈ definitions)
      (Viable (definitions + 1)) := Predicts.pure rfl
  have hsome : Predicts (some <$> definition) (fun result taken =>
      result.elim (taken ∈ (1 : Language Token)) fun _ => taken ∈ definitions)
      (Viable (definitions + 1)) :=
    Predicts.map (follows_definition.predicts.mono (fun _ _ hts => hts) fun _ hviable =>
      hviable.mono fun _ => .inl)
  refine Follows.collect_each (Predicts.bind_peek? fun index rest => ?_) nil_not_mem_definition
  split
  next => exact hnone index rest
  next => exact hsome index rest

end Parser

end SdlGraph
